import MxStar.Proofs.Flow.BuildingBodies
import MxStar.Proofs.Flow.DraftingSteps

/-!
# Expressions keep the shape of a body

One rule for each step that builds a part of an expression.  It leaves the current
block with the end it had, so that a test may be built in a block that has none yet.
The blocks a construct creates all count on what has a value where it splits the
current block, which is why values computed before the split may be used in any of
them.  What an expression stands for has the shape of the type that the expression
says, and a name stands for a place of the type that the scopes keep for it.
-/

namespace MxStar.Flow

open Build
open Source (Typing Expr)

/-! ## Members of classes -/

theorem find?_zipIdx {α : Type} (P : α → Bool) (l : List α) (n : Nat) :
    ((l.zipIdx n).find? fun x => P x.1).map Prod.fst = l.find? P := by
  induction l generalizing n with
  | nil => rfl
  | cons a rest ih =>
    simp only [List.zipIdx_cons, List.find?_cons]
    cases P a with
    | true => rfl
    | false => exact ih (n + 1)

/-- A member is laid out with the type it is declared with. -/
theorem find?_place (field : String) (offset : Nat) (members : List (String × Ty)) :
    ((Struct.place offset members).1.find? fun m => m.name == field).map Member.ty =
      (members.find? fun m => m.1 == field).map Prod.snd := by
  induction members generalizing offset with
  | nil => rfl
  | cons m rest ih =>
    obtain ⟨name, ty⟩ := m
    simp only [Struct.place, List.find?_cons]
    cases name == field with
    | true => rfl
    | false => exact ih _

/-- The layout of a class has its members, with their types. -/
theorem ty_member?_structsOf {symbols : Source.Symbols} {struct : Struct}
    (h : ((structsOf symbols).find? fun s => s.name == className) = some struct) (field : String) :
    (struct.member? field).map (fun m => m.2.ty) =
      (symbols.memberType? className field).map Ty.ofSource := by
  rw [structsOf, List.find?_map] at h
  obtain ⟨info, hinfo, rfl⟩ := Option.map_eq_some_iff.mp h
  have hinfo : symbols.classList.find? (fun info => info.name == className) = some info := hinfo
  have hplaced := find?_place field 0 (info.members.map fun m => (m.1, Ty.ofSource m.2))
  have hzip := congrArg (Option.map Member.ty) (find?_zipIdx (fun m : Member => m.name == field)
    (Struct.place 0 (info.members.map fun m => (m.1, Ty.ofSource m.2))).1 0)
  rw [Source.Symbols.memberType?, hinfo, Option.bind_some, Struct.member?, Option.map_map]
  rw [Option.map_map] at hzip
  refine (hzip.trans hplaced).trans ?_
  rw [List.find?_map, Option.map_map, Option.map_map]
  rfl

theorem lt_length_of_member? {struct : Struct} (h : struct.member? field = some (i, m)) :
    i < struct.members.length := by
  obtain ⟨⟨m', i'⟩, hfind, heq⟩ := Option.map_eq_some_iff.mp h
  cases heq
  have hmem := List.mem_of_find?_eq_some hfind
  simpa using List.snd_lt_of_mem_zipIdx hmem

/-! ## What a body refers to -/

/-- A context that has the classes and globals of its unit. -/
structure Context.Shares (ctx : Context) (U : UnitPlan) : Prop where
  covers : U.vocabulary.Covers ctx
  structs : ctx.structs = structsOf U.symbols
  global : ∀ name, (U.vocabulary.globals.find? fun g => g.name == name).map Global.ty =
    (U.globals name).map Ty.ofSource

/-- The receiver and the cell for the result have a value as well. -/
structure Context.Suits (ctx : Context) (P : Plan) (κ : Facts) : Prop
    extends ctx.Shares P.toUnitPlan where
  owner : ctx.receiver.map Receiver.className = P.owner
  receiver : ∀ r ∈ ctx.receiver, κ.Gives r.register (.object r.className)
  returnCell : ∀ r ∈ ctx.returnCell, κ.Gives r (Ty.ofSource P.returnType).pointerTo

/-- What an expression was lowered to has a shape. -/
def Plan.Stands (P : Plan) (κ : Facts) (shape : Ty.Shape) : Lowered → Prop
  | .value o => P.Value κ shape o
  | .place address ty => P.Place κ shape address ty
  | .nothing => True

theorem Plan.Stands.congr {P : Plan} {κ : Facts} {shape : Ty.Shape} {lowered : Lowered}
    (h : P.Stands κ shape lowered) (heq : P.typed → shape = shape') :
    P.Stands κ shape' lowered := by
  cases lowered with
  | value o => exact Value.congr h heq
  | place address ty => exact Place.congr h heq
  | nothing => trivial

/-- A step that computes something wherever at least `κ` is known. -/
def Offers {α : Type} (P : Plan) (κ : Facts) (N : Typing) (step : Build α)
    (Q : Facts → α → Prop) : Prop :=
  ∀ ⦃κ'⦄, κ ≤ κ' → ∀ T W O, Yields P κ' T W O N step Q

theorem Offers.mono {α : Type} {step : Build α} {Q : Facts → α → Prop} (h : Offers P κ N step Q)
    (hle : κ ≤ κ') : Offers P κ' N step Q :=
  fun _ hle' => h (hle.trans hle')

namespace Context

variable {ctx : Context} {P : Plan}

theorem Suits.mono (h : ctx.Suits P κ) (hle : κ ≤ κ') : ctx.Suits P κ' :=
  { h with
    receiver := fun r hr => (h.receiver r hr).mono hle
    returnCell := fun r hr => (h.returnCell r hr).mono hle }

variable {name : String} {e : Error}

/-- A class that is missing is no fault of the graph. -/
theorem isStructural_of_struct (h : ctx.struct name = .error e) : e.isStructural = false := by
  unfold Context.struct at h
  split at h
  · cases h
  · cases h
    rfl

section

variable {struct : Struct} (h : ctx.Shares P.toUnitPlan)
  (hstruct : ctx.struct className = .ok struct)
include h hstruct

theorem Shares.find?_of_struct :
    ((structsOf P.symbols).find? fun s => s.name == className) = some struct := by
  unfold Context.struct at hstruct
  rw [h.structs] at hstruct
  split at hstruct
  · rename_i hfind
    rw [hfind, Except.ok.inj hstruct]
  · cases hstruct

/-- A member that is found is declared in the source. -/
theorem Shares.exists_memberType? (hmember : struct.member? member = some (field, declaration)) :
    ∃ source, P.symbols.memberType? className member = some source ∧
      declaration.ty = .ofSource source := by
  have hty := ty_member?_structsOf (h.find?_of_struct hstruct) member
  rw [hmember] at hty
  obtain ⟨source, hsource, heq⟩ := Option.map_eq_some_iff.mp hty.symm
  exact ⟨source, hsource, heq.symm⟩

end

theorem isStructural_of_receiverWith? (h : ctx.receiverWith? member = .error e) :
    e.isStructural = false := by
  unfold Context.receiverWith? at h
  cases hr : ctx.receiver with
  | none =>
    rw [hr] at h
    cases h
  | some receiver =>
    rw [hr] at h
    cases hs : ctx.struct receiver.className with
    | ok struct => simp [hs, bind, Except.bind, pure, Except.pure] at h
    | error e' =>
      simp only [hs, bind, Except.bind, Except.error.injEq] at h
      exact h ▸ isStructural_of_struct hs

/-- The receiver stands for a name only if its class has such a member. -/
theorem receiverWith?_eq_ok {receiver : Option Receiver}
    (h : ctx.receiverWith? name = .ok receiver) :
    ctx.receiver = none ∧ receiver = none ∨
      ∃ r struct, ctx.receiver = some r ∧ ctx.struct r.className = .ok struct ∧
        receiver = if (struct.member? name).isSome then some r else none := by
  unfold Context.receiverWith? at h
  cases hrecv : ctx.receiver with
  | none =>
    rw [hrecv] at h
    exact .inl ⟨rfl, (Except.ok.inj h).symm⟩
  | some r =>
    rw [hrecv] at h
    obtain ⟨struct, hstruct, h⟩ := Except.bind_eq_ok.mp h
    exact .inr ⟨r, struct, rfl, hstruct, (Except.ok.inj h).symm⟩

theorem Suits.outerTyping_of_receiverWith? (h : ctx.Suits P κ)
    (hrecv : ctx.receiverWith? name = .ok none) :
    P.symbols.outerTyping P.owner P.globals name = P.globals name := by
  rw [Source.Symbols.outerTyping, ← h.owner]
  obtain ⟨hnone, -⟩ | ⟨r, struct, hsome, hstruct, hmember⟩ := receiverWith?_eq_ok hrecv
  · rw [hnone]
    rfl
  · have hty := ty_member?_structsOf (h.find?_of_struct hstruct) name
    have hnone : struct.member? name = none := by
      cases hm : struct.member? name with
      | none => rfl
      | some m => simp [hm] at hmember
    rw [hnone] at hty
    rw [hsome, Option.map_some, Option.bind_some, Option.map_eq_none_iff.mp hty.symm]
    rfl

theorem isStructural_of_functionSymbol (h : ctx.functionSymbol name = .error e) :
    e.isStructural = false := by
  unfold Context.functionSymbol at h
  split at h
  · cases h
  · split at h
    · cases h
    · cases h
      rfl

theorem isStructural_of_methodCallee (h : ctx.methodCallee ty method = .error e) :
    e.isStructural = false := by
  unfold Context.methodCallee at h
  repeat' split at h
  all_goals cases h
  all_goals rfl

end Context

section

variable {P : Plan} {κ : Facts} {T : Option Terminator} {W : List Waiting} {O : Surroundings}
  {N : Typing} {ctx : Context} {shape : Ty.Shape}
  {op : Source.BinaryOp} {e : Expr} {ty : Source.Ty} {left right : Operand}

open Plan

/-! ## Values, places and names -/

variable {lowered : Lowered} {className : String} {operation : ArithOp} {condition : Condition}

/-- A place is loaded, and a value stays as it is. -/
theorem yields_toValue (h : P.Stands κ shape lowered) :
    Yields P κ T W O N (lowered.toValue e) fun κ' o => P.Value κ' shape o := by
  cases lowered with
  | value o => exact .pure h
  | place address ty => exact .mono (yields_load h) fun _ o _ ho => ⟨ty, ho, h.shape⟩
  | nothing => exact .throw rfl

theorem yields_toPlace (h : P.Stands κ shape lowered) :
    Yields P κ T W O N (lowered.toPlace e) fun κ' place => P.Place κ' shape place.1 place.2 := by
  cases lowered with
  | place address ty => exact .pure h
  | _ => exact .throw rfl

theorem yields_toCondition (h : P.Stands κ .truth lowered) :
    Yields P κ T W O N (lowered.toCondition e) fun κ' o => P.IsCondition κ' o :=
  .bind (yields_toValue h) fun _ _ _ => yields_asCondition

theorem yields_toStorage (h : P.Stands κ shape lowered) :
    Yields P κ T W O N (lowered.toStorage e) fun κ' o => P.Stored κ' shape o :=
  .bind (yields_toValue h) fun _ _ _ => yields_asStorage

/-- A member of an object is a place of its declared type. -/
theorem yields_memberAddress {ty : Ty} (hctx : ctx.Suits P κ) (hbase : P.Has κ base ty) :
    Yields P κ T W O N (ctx.memberAddress base className member) fun κ' place =>
      ∃ source, P.symbols.memberType? className member = some source ∧
        P.Place κ' (Ty.ofSource source).shape place.1 place.2 := by
  refine .bind (.ofExcept fun _ => Context.isStructural_of_struct) fun struct κ1 h1 hstruct => ?_
  split
  · rename_i field declaration hmember
    obtain ⟨source, hsource, heq⟩ := hctx.exists_memberType? hstruct hmember
    have hkept : declaration.ty.IsKept := heq ▸ Ty.isKept_ofSource source
    have hfield := lt_length_of_member? hmember
    refine .bind (yields_define hkept.pointerTo.flat (fun _ => rfl) (fun d => ?_)
      fun d registers _ => ?_) fun address κ2 h2 haddr => .pure ⟨source, hsource, ?_⟩
    · have hle := h1.trans (κ1.le_assume d declaration.ty.pointerTo)
      exact {
        reads := by simpa [Instr.operands] using ⟨ty, hbase.mono hle⟩
        writes := by simp [Instr.destination?, Facts.assume]
        plain := rfl
        refers := ⟨struct, hctx.find?_of_struct hstruct, hfield⟩
        explicit := fun _ _ _ => trivial }
    · obtain ⟨rfl, hfound⟩ := hctx.covers.struct? hstruct
      exact .member d base struct field hfound hfield (hbase.mono h1).known
    · exact (haddr.place hkept).congr fun _ => by rw [heq]
  · exact .throw rfl

variable {object : Source.Ty}

/-- A name that no scope declares is a member or a global. -/
theorem yields_resolve_outer (hctx : ctx.Suits P κ)
    (houter : P.typed → P.symbols.outerTyping P.owner P.globals name = some source) :
    Yields P κ T W O N (do
      if let some receiver ← ofExcept (ctx.receiverWith? name) then
        return ← ctx.memberAddress (.register receiver.register) receiver.className name
      if let some global := ctx.globals.find? fun g => g.name == name then
        return (.global name, global.ty)
      throw (.unresolvedSymbol name)) fun κ' place =>
        P.Place κ' (Ty.ofSource source).shape place.1 place.2 := by
  refine .bind (.ofExcept fun _ => Context.isStructural_of_receiverWith?)
    fun receiver κ1 h1 hfound => ?_
  have hctx := hctx.mono h1
  cases receiver with
  | some receiver =>
    have hrecv : ctx.receiver = some receiver := by
      obtain ⟨-, hnone⟩ | ⟨r, struct, hr, -, heq⟩ := Context.receiverWith?_eq_ok hfound
      · cases hnone
      · split at heq
        · rw [hr, heq]
        · cases heq
    refine .mono (yields_memberAddress hctx (has_of_gives (hctx.receiver receiver hrecv)))
      fun κ' place _ hplace => ?_
    obtain ⟨source', hsource', hplace⟩ := hplace
    refine hplace.congr fun htyped => ?_
    have hsource := houter htyped
    rw [Source.Symbols.outerTyping, ← hctx.owner, hrecv] at hsource
    simp only [Option.map_some, Option.bind_some, hsource', Option.some_or] at hsource
    rw [Option.some.inj hsource]
  | none =>
    cases hglobal : ctx.globals.find? fun g => g.name == name with
    | some global =>
      have hglobal' : (P.vocabulary.globals.find? fun g => g.name == name) = some global :=
        hctx.covers.globals ▸ hglobal
      have hty := hctx.global name
      rw [hglobal'] at hty
      obtain ⟨source', hsource', heq⟩ := Option.map_eq_some_iff.mp hty.symm
      refine .pure ⟨⟨_, by simp, ?_, fun _ _ => rfl⟩, ?_, fun _ _ => ⟨global, hglobal', rfl⟩,
        fun htyped => ?_⟩
      · exact ⟨global, List.mem_of_find?_eq_some hglobal', by simpa using List.find?_some hglobal'⟩
      · rw [← heq]
        exact Ty.isKept_ofSource source'
      · have hsource := houter htyped
        rw [hctx.outerTyping_of_receiverWith? hfound, hsource'] at hsource
        rw [← heq, Option.some.inj hsource]
    | none => exact .throw rfl

/-- **A name** stands for a place of its type. -/
theorem yields_resolve (hctx : ctx.Suits P κ) (hname : P.typed → N name = some source) :
    Yields P κ T W O N (ctx.resolve name) fun κ' place =>
      P.Place κ' (Ty.ofSource source).shape place.1 place.2 := by
  refine Drafts.get fun s hs => ?_
  obtain ⟨⟨A, hstage⟩, -⟩ := id hs
  have hnames := hstage.names name
  cases hresolve : s.scopes.resolve? name with
  | some found =>
    obtain ⟨storage, ty⟩ := found
    rw [hresolve] at hnames
    obtain ⟨hkept, ⟨r, rfl, hr⟩, hsource⟩ := hnames
    refine .pure fun s' hs' => ⟨κ, T, N, le_refl κ, ⟨rfl, rfl, ?_⟩, hs' ▸ hs⟩
    refine (place_of_gives hkept hr).congr fun htyped => ?_
    obtain ⟨source', hknown, rfl⟩ := hsource htyped
    rw [Option.some.inj (hknown.symm.trans (hname htyped))]
  | none =>
    -- the name means what it does outside of all regions
    rw [hresolve] at hnames
    have houter : P.typed → P.symbols.outerTyping P.owner P.globals name = some source :=
      fun htyped => (hnames htyped).symm.trans (hname htyped)
    exact Drafts.mono (yields_resolve_outer hctx houter) (fun s' hs' => hs' ▸ hs) fun _ _ h => h

theorem yields_lowerLiteral (value : Source.Literal) :
    Yields P κ T W O N (lowerLiteral value) fun κ' o =>
      P.Value κ' (Ty.ofSource value.ty).shape o := by
  cases value with
  | text value =>
    rintro s ⟨⟨A, hs⟩, hmoved⟩
    have hsize := s.strings.size_le_size_intern value
    have hle : κ ≤ { κ with strings := (s.strings.intern value).2.size } :=
      { Facts.le_iff.mp (le_refl κ) with strings := hs.strings.trans hsize }
    refine ⟨_, T, N, hle, ⟨rfl, rfl, .string, ⟨by simp, ?_, fun _ _ => rfl⟩, fun _ => rfl⟩,
      ⟨A, ?_⟩, hmoved.tail (.intern s value)⟩
    · exact s.strings.lt_size_intern value
    · exact (hs.rescope hs.names hs.outer hsize).know hle rfl rfl hs.dead hs.given hs.types le_rfl
  | integer value => exact .pure ⟨.int, P.has_constant _ _, fun _ => rfl⟩
  | boolean value => exact .pure ⟨.cond, P.has_constant _ _, fun _ => rfl⟩
  | null => exact .pure ⟨.anyPointer, P.has_constant _ _, fun _ => rfl⟩

/-! ## Arms -/

/-- A step that may be built in a block of its own wherever at least `κ` is known, and that
leaves the blocks `dead` behind. -/
def IsArm (P : Plan) (κ : Facts) (O : Surroundings) (N : Typing) (arm : Build Unit)
    (dead : Set BlockId) : Prop :=
  ∀ ⦃κ'⦄, κ ≤ κ' → ∀ T W, T.isSome → Drafts (At P κ' T W O N) arm (Closed P (κ'.bury dead) W O N)

theorem Offers.isArm {Q : Facts → Unit → Prop} (h : Offers P κ N arm Q) : IsArm P κ O N arm ∅ := by
  intro κ' hle T W hT
  rw [κ'.bury_empty]
  exact (h hle T W O).closed hT

section

variable {next : BlockId} {dead dead' : Set BlockId}

/-- An arm is built in a block that waits for it. -/
theorem drafts_armAt (hW : W.Perm (w :: W')) (hT : T.isSome) (hle : κ0 ≤ κ)
    (hw : w.known = κ0.registers) (hend : w.terminator.isSome) (harm : IsArm P κ0 O N arm dead)
    (hnext : κ0.Allows next) :
    Drafts (At P κ T W O N) (armAt w.block next arm) (Closed P (κ0.bury dead) W' O N) := by
  refine (drafts_switchTo hW hT).bind fun _ => ?_
  have h1 : κ0 ≤ κ.within w.known := hw ▸ Facts.le_within_of_le hle
  refine (harm h1 _ _ hend).thenClosed fun κ2 T2 h2 _ => ?_
  have h2 := (Facts.bury_mono h1 dead).trans h2
  exact Extends.mono (drafts_jump (hnext.mono ((κ0.le_bury dead).trans h2))) h2 fun _ _ _ _ _ h => h

theorem drafts_switchTo_next {K : Set RegisterId} (hT : T.isSome) (h0 : κ0 ≤ κ1) (hle : κ1 ≤ κ)
    (hK : K = κ1.registers) :
    Drafts (At P κ T (⟨next, T', K⟩ :: W) O N) (switchTo next)
      (Reaches P κ0 W O fun _ T'' N' _ => T'' = T' ∧ N' = N ∧ True) := by
  subst hK
  exact Drafts.mono (drafts_switchTo (w := ⟨next, _, _⟩) (.refl _) hT) (fun _ hs => hs)
    fun _ _ hs => ⟨_, T', N, h0.trans (Facts.le_within_of_le hle), ⟨rfl, rfl, trivial⟩, hs⟩

/-- **Two arms** leave behind what was known before them. -/
theorem drafts_fork (hle : κ0 ≤ κ) (ht : P.Fits κ t)
    (hW : W.Perm (⟨first, some (.jump next), κ.registers⟩ ::
      ⟨second, some (.jump next), κ.registers⟩ :: ⟨next, T', κ.registers⟩ :: W'))
    (hfirst : IsArm P κ O N firstArm dead) (hsecond : IsArm P κ O N secondArm dead')
    (hnext : κ.Allows next) :
    Drafts (At P κ T W O N) (fork t first second next firstArm secondArm)
      (Reaches P ((κ0.bury dead).bury dead') W' O fun _ T'' N' _ => T'' = T' ∧ N' = N ∧ True) := by
  refine (drafts_terminate ht).thenClosed fun κ1 T1 h1 hT1 => ?_
  refine (drafts_armAt (w := ⟨first, _, _⟩) hW hT1 h1 rfl rfl hfirst hnext).thenClosed
    fun κ2 T2 h2 hT2 => ?_
  have hbury := κ.le_bury dead
  refine (drafts_armAt (w := ⟨second, _, _⟩) (.refl _) hT2 h2 rfl rfl
    (fun _ h => hsecond (hbury.trans h)) (hnext.mono hbury)).thenClosed fun κ3 T3 h3 hT3 => ?_
  exact drafts_switchTo_next hT3 (Facts.bury_mono (Facts.bury_mono hle dead) dead') h3 rfl

/-- Three blocks are opened, which wait to be built. -/
theorem drafts_withBlocks {firstEnd : BlockId → Option Terminator}
    {secondEnd : BlockId → BlockId → Option Terminator}
    {k : BlockId → BlockId → BlockId → Build Unit} {post : Unit → Builder → Prop}
    (htag : tag ∈ blockTags) (hfirstTag : firstTag ∈ blockTags) (hsecondTag : secondTag ∈ blockTags)
    (hfirst : ∀ next t, firstEnd next = some t → t = .jump next)
    (hsecond : ∀ next first t, secondEnd next first = some t → ∃ b ∈ [first, next], t = .jump b)
    (hk : ∀ next first second κ', κ.Splits κ' [second, first, next] →
      Drafts (At P κ' T (⟨second, secondEnd next first, κ'.registers⟩ ::
        ⟨first, firstEnd next, κ'.registers⟩ :: ⟨next, T, κ'.registers⟩ :: W) O N)
        (k next first second) post) :
    Drafts (At P κ T W O N) (withBlocks tag firstTag secondTag firstEnd secondEnd k) post := by
  refine drafts_inherit htag fun next => ?_
  have hnext := κ.splits_openBlock next
  refine (drafts_createBlock hfirstTag (fun t ht => ?_) fun t ht => ?_).bind fun first => ?_
  · exact hfirst next t ht ▸ fits_jump (hnext.allows _ (by simp))
  · exact .inl (hfirst next t ht ▸ rfl)
  have hsplit := hnext.openBlock first
  refine (drafts_createBlock hsecondTag (fun t ht => ?_) fun t ht => ?_).bind fun second => ?_
  · obtain ⟨b, hb, rfl⟩ := hsecond next first t ht
    exact fits_jump (hsplit.allows b hb)
  · obtain ⟨b, -, rfl⟩ := hsecond next first t ht
    exact .inl rfl
  exact hk next first second _ (hsplit.openBlock second)

theorem drafts_withFork {t : BlockId → BlockId → Terminator} (htag : tag ∈ blockTags)
    (hfirstTag : firstTag ∈ blockTags) (hsecondTag : secondTag ∈ blockTags)
    (ht : ∀ ⦃κ'⦄, κ ≤ κ' → ∀ b c, κ'.Allows b → κ'.Allows c → P.Fits κ' (t b c))
    (hfirst : ∀ ⦃κ'⦄, κ ≤ κ' → IsArm P κ' O N firstArm dead)
    (hsecond : ∀ ⦃κ'⦄, κ ≤ κ' → IsArm P κ' O N secondArm dead') :
    Drafts (At P κ T W O N) (withFork tag firstTag secondTag fun next first second =>
      fork (t first second) first second next firstArm secondArm)
      (Reaches P ((κ.bury dead).bury dead') W O fun _ T' N' _ => T' = T ∧ N' = N ∧ True) := by
  refine drafts_withBlocks htag hfirstTag hsecondTag (by simp) (by simp) fun next first second κ'
    hsplit => ?_
  exact drafts_fork hsplit.le (ht hsplit.le _ _ (hsplit.allows _ (by simp))
    (hsplit.allows _ (by simp))) (.swap _ _ _) (hfirst hsplit.le) (hsecond hsplit.le)
    (hsplit.allows _ (by simp))

end

/-! ## Choices -/

/-- The right side is an arm of its own. -/
theorem yields_shortCircuit {left right : Build Operand}
    (hleft : Offers P κ N left fun κ' o => P.IsCondition κ' o)
    (hright : Offers P κ N right fun κ' o => P.Stored κ' .truth o) :
    Yields P κ T W O N (shortCircuit isAnd left right) fun κ' o => P.IsCondition κ' o := by
  have htag : ∀ suffix ∈ ["_end", "_rhs", "_short"],
      (if isAnd then "and" else "or") ++ suffix ∈ blockTags := by cases isAnd <;> decide
  have hbool : Ty.bool.IsKept := trivial
  rw [shortCircuit_eq]
  refine .bind (yields_createCell hbool (by simp) _) fun result κ1 h1 hresult => ?_
  refine .bind (hleft h1 T W O) fun decided κ2 h2 hdecided => ?_
  have hcell := place_of_gives (P := P) hbool (hresult.mono h2)
  refine Yields.bind (Q := fun _ _ => True) (drafts_withBlocks (htag _ (by simp)) (htag _ (by simp))
    (htag _ (by simp)) (by simp) (by simp) fun next rest short κ3 hsplit => ?_) fun _ κ4 h4 _ => ?_
  · have hle := hsplit.le
    refine (drafts_fork hle ?_ (.refl _) (Offers.isArm (Q := fun _ _ => True) ?_)
      (Offers.isArm (Q := fun _ _ => True) ?_) (hsplit.allows next (by simp))).lower (by simp)
    · split <;> exact fits_branch (hdecided.mono hle) (hsplit.allows _ (by simp))
        (hsplit.allows _ (by simp))
    · intro κ' hle' T W O
      exact yields_store ⟨.bool, P.has_constant _ _, fun _ => ⟨by simp, rfl⟩⟩
        (hcell.mono (hle.trans hle'))
    · intro κ' hle' T W O
      have hle' := hle.trans hle'
      exact .bind (hright ((h1.trans h2).trans hle') T W O) fun value κ6 h6 hvalue =>
        yields_store hvalue (hcell.mono (hle'.trans h6))
  · exact .bind (yields_load (hcell.mono h4)) fun _ _ _ ho =>
      yields_asCondition ⟨.bool, ho, fun _ => rfl⟩

/-- An arm stores its value, if the choice has one. -/
theorem offers_intoCell {ty : Ty}
    (harm : Offers P κ N arm fun κ' lowered => P.Stands κ' shape lowered)
    (hresult : ∀ r ∈ result, P.Place κ shape (.register r) ty) :
    Offers P κ N (intoCell result e arm) fun _ _ => True := by
  intro κ' hle T W O
  refine .bind (harm hle T W O) fun lowered κ2 h2 hlow => ?_
  cases result with
  | none => exact .pure trivial
  | some cell =>
    refine .bind (yields_toStorage hlow) fun value κ3 h3 hvalue => ?_
    exact yields_store hvalue ((hresult cell rfl).mono ((hle.trans h2).trans h3))

theorem yields_chooseInto {condition : Build Operand}
    (hresult : ∀ r ∈ result, κ.Gives r (Ty.ofSource ty).pointerTo)
    (hcond : Offers P κ N condition fun κ' o => P.IsCondition κ' o)
    (hpos : Offers P κ N positiveArm fun κ' => P.Stands κ' (Ty.ofSource ty).shape)
    (hneg : Offers P κ N negativeArm fun κ' => P.Stands κ' (Ty.ofSource ty).shape) :
    Yields P κ T W O N (chooseInto result ty condition positive negative positiveArm negativeArm)
      fun κ' => P.Stands κ' (Ty.ofSource ty).shape := by
  rw [chooseInto_eq]
  refine .bind (hcond (le_refl κ) T W O) fun chosen κ1 h1 hchosen => ?_
  have hcell : ∀ {κ'}, κ1 ≤ κ' → ∀ r ∈ result,
      P.Place κ' (Ty.ofSource ty).shape (.register r) (Ty.ofSource ty) := fun hle r hr =>
    place_of_gives (Ty.isKept_ofSource ty) ((hresult r hr).mono (h1.trans hle))
  refine .bind ((drafts_withFork (by decide) (by decide) (by decide)
    (fun κ' hle _ _ => fits_branch (hchosen.mono hle))
    (fun κ' hle => (offers_intoCell (hpos.mono (h1.trans hle)) (hcell hle)).isArm)
    fun κ' hle => (offers_intoCell (hneg.mono (h1.trans hle)) (hcell hle)).isArm).lower
      (by simp)) fun _ κ2 h2 _ => ?_
  cases result with
  | none => exact .pure trivial
  | some cell =>
    exact .map (.mono (yields_load (hcell h2 cell rfl)) fun _ o _ ho => ho.shaped)

/-- **A choice** has the shape of its type. -/
theorem yields_choose {condition : Build Operand}
    (hcond : Offers P κ N condition fun κ' o => P.IsCondition κ' o)
    (hpos : Offers P κ N positiveArm fun κ' => P.Stands κ' (Ty.ofSource ty).shape)
    (hneg : Offers P κ N negativeArm fun κ' => P.Stands κ' (Ty.ofSource ty).shape) :
    Yields P κ T W O N (choose ty condition positive negative positiveArm negativeArm)
      fun κ' => P.Stands κ' (Ty.ofSource ty).shape := by
  rw [choose_eq]
  split
  · exact yields_chooseInto (by simp) hcond hpos hneg
  · rename_i hvoid
    refine .bind (yields_createCell (Ty.isKept_ofSource ty) (fun _ => Ty.ofSource_ne_void ?_) _)
      fun cell κ1 h1 hcell => ?_
    · rintro rfl
      exact hvoid rfl
    exact yields_chooseInto (by simpa using hcell) (hcond.mono h1) (hpos.mono h1)
      (hneg.mono h1)

/-! ## Operators -/

theorem Plan.Value.argument (h : P.Value κ .word o) : ∀ o' ∈ [o], P.Passable κ o' := by
  intro o' ho'
  rw [List.mem_singleton.mp ho']
  exact h.stored.passable

theorem Plan.Value.arguments (hleft : P.Value κ .word left)
    (hright : P.Value κ .word right) : ∀ o ∈ [left, right], P.Passable κ o := by
  intro o ho
  rcases List.mem_cons.mp ho with rfl | ho
  · exact hleft.stored.passable
  · exact hright.argument o ho

section

variable (hsupport : ∀ symbol ∈ Linkage.support, P.vocabulary.calls symbol)
include hsupport

theorem yields_joinStrings (hlhs : P.Value κ .word lhs) (hrhs : P.Value κ .word rhs) :
    Yields P κ T W O N (joinStrings lhs rhs) fun κ' o => P.Has κ' o .string := by
  have hlen := hsupport Linkage.stringLength (by decide)
  refine .bind (yields_callValue hlen hlhs.argument (.inr trivial)) fun left κ1 h1 hleft => ?_
  refine .bind (yields_callValue hlen (hrhs.mono h1).argument (.inr trivial))
    fun right κ2 h2 hright => ?_
  refine .bind (yields_arith _ (hleft.mono h2) hright) fun length κ3 h3 hlen => ?_
  refine .bind (yields_arith _ hlen (P.has_int _ _)) fun bytes κ4 h4 hbytes => ?_
  refine .bind (yields_callValue (hsupport Linkage.allocate (by decide)) hbytes.shaped.argument
    (.inr trivial)) fun buffer κ5 h5 hbuffer => ?_
  have hle := (((h1.trans h2).trans h3).trans h4).trans h5
  refine .bind (yields_callVoid (hsupport Linkage.stringCopy (by decide))
    (hbuffer.shaped.arguments (hlhs.mono hle))) fun _ κ6 h6 _ => ?_
  have hbuffer := hbuffer.mono h6
  refine .bind (yields_callVoid (hsupport Linkage.stringAppend (by decide))
    (hbuffer.shaped.arguments (hrhs.mono (hle.trans h6)))) fun _ κ7 h7 _ => ?_
  exact .pure (hbuffer.mono h7)

/-- Strings are joined or compared. -/
theorem yields_stringOperation (hleft : P.Value κ .word left) (hright : P.Value κ .word right) :
    Yields P κ T W O N (stringOperation op left right) fun κ' o =>
      op = .add ∧ P.Has κ' o .string ∨ op.operatorClass ≠ .arithmetic ∧ P.Has κ' o .cond := by
  unfold stringOperation
  split
  · rename_i hop
    exact .mono (yields_joinStrings hsupport hleft hright) fun _ o _ ho => .inl ⟨hop, ho⟩
  · split
    · rename_i function hfun
      have hcalls := hsupport function (Linkage.mem_support_of_stringComparison? hfun)
      refine .mono (yields_callValue hcalls (hleft.arguments hright) (.inl rfl))
        fun _ o _ ho => .inr ⟨?_, ho⟩
      cases op <;> first | decide | cases hfun
    · exact .throw rfl

end

theorem Ty.shape_of_isString (h : ty.isString = true) : (ofSource ty).shape = .word := by
  obtain ⟨base, dimensions⟩ := ty
  simp only [Source.Ty.isString, Bool.and_eq_true, beq_iff_eq] at h
  obtain ⟨rfl, rfl⟩ := h
  rfl

theorem operatorClass_of_arithmetic (h : Operation.ofSource op = .arithmetic operation) :
    op.operatorClass = .arithmetic := by
  cases op <;> first | rfl | cases h

theorem operatorClass_of_comparison (h : Operation.ofSource op = .comparison condition) :
    op.operatorClass = .relational ∨ op.operatorClass = .equality := by
  cases op <;> first | exact .inl rfl | exact .inr rfl | cases h

theorem typeOf?_of_comparison {left right ty : Source.Ty}
    (hop : Operation.ofSource op = .comparison condition) (h : op.typeOf? left right = some ty) :
    ty = .bool := by
  unfold Source.BinaryOp.typeOf? at h
  rcases operatorClass_of_comparison hop with hclass | hclass <;>
    · rw [hclass] at h
      simp only at h
      split at h
      · exact (Option.some.inj h).symm
      · cases h

/-- Arithmetic is on integers, and strings are added. -/
theorem typeOf?_of_arithmetic {left right ty : Source.Ty}
    (hop : Operation.ofSource op = .arithmetic operation) (h : op.typeOf? left right = some ty) :
    left = .int ∧ ty = .int ∨ left = .string ∧ right = .string ∧ ty = .string := by
  unfold Source.BinaryOp.typeOf? at h
  rw [operatorClass_of_arithmetic hop] at h
  simp only at h
  split at h
  · rename_i hint
    exact .inl ⟨hint.1, (Option.some.inj h).symm⟩
  · split at h
    · rename_i hstring
      exact .inr ⟨hstring.2.1, hstring.2.2, (Option.some.inj h).symm⟩
    · cases h

theorem typeOf?_of_logical {left right ty : Source.Ty}
    (hop : Operation.ofSource op = .shortCircuit isAnd) (h : op.typeOf? left right = some ty) :
    left = .bool ∧ right = .bool ∧ ty = .bool := by
  have hclass : op.operatorClass = .logical := by cases op <;> first | rfl | cases hop
  unfold Source.BinaryOp.typeOf? at h
  rw [hclass] at h
  simp only at h
  split at h
  · rename_i hbool
    exact ⟨hbool.1, hbool.2, (Option.some.inj h).symm⟩
  · cases h

/-- An arithmetic operator, on integers or on strings. -/
theorem yields_operate_arith (hsupport : ∀ symbol ∈ Linkage.support, P.vocabulary.calls symbol)
    {ty : Source.Ty} (hop : Operation.ofSource op = .arithmetic operation)
    (htyped : P.typed → op.typeOf? leftType rightType = some ty)
    (hleft : P.Value κ (Ty.ofSource leftType).shape left)
    (hright : P.Value κ (Ty.ofSource rightType).shape right) :
    Yields P κ T W O N (operate op leftType rightType (arith operation) left right)
      fun κ' o => P.Value κ' (Ty.ofSource ty).shape o := by
  unfold operate
  split
  · rename_i hstrings
    rw [Bool.and_eq_true] at hstrings
    rw [Ty.shape_of_isString hstrings.1] at hleft
    rw [Ty.shape_of_isString hstrings.2] at hright
    refine .mono (yields_stringOperation hsupport hleft hright) fun _ o _ ho => ?_
    rcases ho with ⟨-, ho⟩ | ⟨hclass, -⟩
    · refine ⟨.string, ho, fun h => ?_⟩
      rcases typeOf?_of_arithmetic hop (htyped h) with ⟨-, rfl⟩ | ⟨-, -, rfl⟩ <;> rfl
    · exact absurd (operatorClass_of_arithmetic hop) hclass
  · obtain ⟨ty1, hty1, hshape⟩ := hleft
    obtain ⟨ty2, hty2, -⟩ := hright
    refine .mono (yields_arith operation hty1 hty2) fun _ o _ ho =>
      ⟨ty1, ho, fun h => (hshape h).trans ?_⟩
    rcases typeOf?_of_arithmetic hop (htyped h) with ⟨rfl, rfl⟩ | ⟨rfl, -, rfl⟩ <;> rfl

theorem yields_compareValues (hleft : P.Value κ shape left) (hright : P.Value κ shape' right) :
    Yields P κ T W O N (compareValues condition ty left right) fun κ' o => P.Has κ' o .cond := by
  unfold compareValues
  split
  · refine .bind (yields_asStorage hleft) fun left κ1 h1 hleft => ?_
    refine .bind (yields_asStorage (hright.mono h1)) fun right κ2 h2 hright => ?_
    obtain ⟨ty1, hty1, -⟩ := hleft
    obtain ⟨ty2, hty2, -⟩ := hright
    exact yields_compare condition (hty1.mono h2) hty2
  · obtain ⟨ty1, hty1, -⟩ := hleft
    obtain ⟨ty2, hty2, -⟩ := hright
    exact yields_compare condition hty1 hty2

/-- A comparison, of words or of strings. -/
theorem yields_operate_compare (hsupport : ∀ symbol ∈ Linkage.support, P.vocabulary.calls symbol)
    {ty : Source.Ty} (hop : Operation.ofSource op = .comparison condition)
    (htyped : P.typed → op.typeOf? leftType rightType = some ty)
    (hleft : P.Value κ (Ty.ofSource leftType).shape left)
    (hright : P.Value κ (Ty.ofSource rightType).shape right) :
    Yields P κ T W O N (operate op leftType rightType (compareValues condition leftType) left right)
      fun κ' o => P.Value κ' (Ty.ofSource ty).shape o := by
  have htruth : ∀ {κ' : Facts} {o : Operand}, P.Has κ' o .cond →
      P.Value κ' (Ty.ofSource ty).shape o := by
    intro κ' o ho
    refine ⟨.cond, ho, fun h => ?_⟩
    rw [typeOf?_of_comparison hop (htyped h)]
    rfl
  unfold operate
  split
  · rename_i hstrings
    rw [Bool.and_eq_true] at hstrings
    rw [Ty.shape_of_isString hstrings.1] at hleft
    rw [Ty.shape_of_isString hstrings.2] at hright
    refine .mono (yields_stringOperation hsupport hleft hright) fun _ o _ ho => ?_
    rcases ho with ⟨rfl, -⟩ | ⟨-, ho⟩
    · cases hop
    · exact htruth ho
  · exact .mono (yields_compareValues hleft hright) fun _ o _ ho => htruth ho

/-- A step stands for a place or for the old value, of one shape. -/
theorem yields_stepExpr {op : ArithOp} (h : P.Stands κ shape operand) :
    Yields P κ T W O N (stepExpr op asPlace e operand) fun κ' => P.Stands κ' shape := by
  refine .bind (yields_toPlace h) fun place κ1 h1 hplace => ?_
  obtain ⟨address, ty⟩ := place
  have hstep : Yields P κ1 T W O N (stepPlace op address ty) fun κ' o => P.Value κ' shape o := by
    refine .bind (yields_load hplace) fun old κ2 h2 hold => ?_
    refine .bind (yields_arith op hold (P.has_int _ _)) fun new κ3 h3 hnew => ?_
    refine .bind (yields_store ?_ (hplace.mono (h2.trans h3))) fun _ κ4 h4 _ => ?_
    · exact ⟨ty, hnew, fun htyped => ⟨hplace.kept.ne_cond, hplace.shape htyped⟩⟩
    · exact .pure ⟨ty, hold.mono (h3.trans h4), hplace.shape⟩
  refine .bind hstep fun old κ2 h2 hold => .pure ?_
  cases asPlace with
  | true => exact hplace.mono h2
  | false => exact hold

theorem yields_lowerUnary {op : Source.UnaryOp}
    (h : P.Stands κ (Ty.ofSource op.operandType).shape operand) :
    Yields P κ T W O N (lowerUnary op e operand)
      fun κ' => P.Stands κ' (Ty.ofSource op.operandType).shape := by
  cases op with
  | plus => exact .map (yields_toValue h)
  | negate =>
    refine .map (.bind (yields_toValue h) fun value _ _ hvalue => ?_)
    obtain ⟨ty, hty, -⟩ := hvalue
    exact .mono (yields_arith _ (P.has_int _ _) hty) fun _ o _ ho => ⟨.int, ho, fun _ => rfl⟩
  | bitNot =>
    refine .map (.bind (yields_toValue h) fun value _ _ hvalue => ?_)
    obtain ⟨ty, hty, hshape⟩ := hvalue
    exact .mono (yields_arith _ hty (P.has_int _ _)) fun _ o _ ho => ⟨ty, ho, hshape⟩
  | logicalNot =>
    refine .bind (yields_toCondition h) fun condition _ _ hcond => ?_
    split
    · exact .pure ⟨.cond, P.has_constant _ _, fun _ => rfl⟩
    · obtain ⟨ty, hty, hshape⟩ := hcond.value
      exact .map (.mono (yields_arith _ hty (P.has_constant _ _)) fun _ o _ ho => ⟨ty, ho, hshape⟩)
  | _ => exact yields_stepExpr h

/-- A call stands for its result, if it has one. -/
theorem yields_callResult {arguments : List Operand} (hcalls : P.vocabulary.calls symbol)
    (hargs : ∀ o ∈ arguments, P.Passable κ o) :
    Yields P κ T W O N (Context.callResult symbol arguments ty)
      fun κ' => P.Stands κ' (Ty.ofSource ty).shape := by
  unfold Context.callResult
  simp only
  split
  · exact .bind (yields_callVoid hcalls hargs) fun _ _ _ _ => .pure trivial
  · exact .map (.mono (yields_callValue hcalls hargs (Ty.isKept_ofSource ty).flat)
      fun _ o _ ho => ho.shaped)

/-! ## The heap -/

theorem yields_newObject (hctx : ctx.Suits P κ) :
    Yields P κ T W O N (ctx.newObject className) fun κ' o => P.Has κ' o (.object className) := by
  refine yields_of_drafts ?_ fun s o s' hstep _ => ?_
  · have hstruct : Drafts (Staged P κ T W O N) (ofExcept (ctx.struct className))
        fun _ => Staged P κ T W O N :=
      .ofExcept (fun _ => Context.isStructural_of_struct) fun _ _ _ hs => hs
    refine hstruct.bind fun struct => ?_
    refine Drafts.bind (drafts_define (.inr trivial) (fun _ => rfl)
      (accepts_callValue (P.has_int _ _).shaped.argument)) fun memory => ?_
    refine .of_exists fun κ1 h1 hmemory => ?_
    refine Drafts.bind (drafts_define (show (Ty.object className).IsFlat from .inr trivial)
      (fun _ => rfl) hmemory.has.accepts_bitCast) fun object => .of_exists fun κ2 h2 hobject => ?_
    have hobject := hobject.has
    split
    · refine Drafts.bind (drafts_emit_none (accepts_call (by simp) hobject.shaped.argument) rfl)
        fun _ => .of_exists fun κ3 h3 _ => Drafts.pure fun s hs => ?_
      exact ⟨κ3, (h1.trans h2).trans h3, hobject.mono h3, hs⟩
    · exact Drafts.pure fun s hs => ⟨κ2, h1.trans h2, hobject, hs⟩
  · obtain ⟨struct, hstruct, -⟩ := EStateM.ofExcept_bind_eq_ok.mp hstep
    obtain ⟨rfl, hfound⟩ := hctx.covers.struct? hstruct
    obtain ⟨rfl, log, rfl⟩ := newObject_cases hstruct hstep
    refine .tail (.tail (.tail (.single (.register s { ty := .string }))
      (.register _ { ty := .object struct.name })) (.note _ log)) (.code _ _ ?_)
    exact .creation struct _ _ hfound (by simp [Table.get?_push])

theorem yields_arrayBytes (h : P.Value κ .word count) :
    Yields P κ T W O N (arrayBytes count element) fun κ' o => P.Value κ' .word o := by
  unfold arrayBytes
  split
  · exact .pure ⟨.int, P.has_constant _ _, fun _ => rfl⟩
  · obtain ⟨ty, hty, hshape⟩ := h
    refine .bind (yields_arith _ hty (P.has_int _ _)) fun scaled _ _ hscaled => ?_
    exact .mono (yields_arith _ hscaled (P.has_int _ _)) fun _ o _ ho => ⟨ty, ho, hshape⟩

theorem yields_countedLoop (htest : Offers P κ N test fun κ' o => P.IsCondition κ' o)
    (hbody : ∀ ⦃κ'⦄, κ ≤ κ' → IsArm P κ' O N body ∅) :
    Yields P κ T W O N (countedLoop test body) fun _ _ => True := by
  refine drafts_withBlocks (by decide) (by decide) (by decide) (by simp) (by simp)
    fun next condition block κ1 hsplit => ?_
  refine (drafts_jump (hsplit.allows condition (by simp))).thenClosed fun κ2 T2 h2 hT2 => ?_
  refine (drafts_switchTo (w := ⟨condition, _, _⟩) (.swap _ _ _) hT2).bind fun _ => ?_
  have h2 := Facts.le_within_of_le h2
  refine (htest (hsplit.le.trans h2) _ _ _).andThen fun more κ3 h3 hmore => ?_
  have h3 := h2.trans h3
  refine (drafts_terminate (fits_branch hmore ((hsplit.allows block (by simp)).mono h3)
    ((hsplit.allows next (by simp)).mono h3))).thenClosed fun κ4 T4 h4 hT4 => ?_
  refine (drafts_armAt (w := ⟨block, _, _⟩) (.refl _) hT4 (h3.trans h4) rfl rfl (hbody hsplit.le)
    (hsplit.allows condition (by simp))).thenClosed fun κ5 T5 h5 hT5 => ?_
  exact drafts_switchTo_next hT5 hsplit.le ((κ1.le_bury ∅).trans h5) rfl

/-- Every element is built by the same code. -/
theorem yields_fillArray {ty ty' : Ty} {inner : Build Operand} (harray : P.Has κ array ty)
    (hcount : P.Has κ count ty') (helem : element.IsKept)
    (hinner : Offers P κ N inner fun κ' o => P.Has κ' o element) :
    Yields P κ T W O N (fillArray array element count inner) fun _ _ => True := by
  have hint : Ty.int.IsKept := trivial
  rw [fillArray_eq]
  refine .bind (yields_createCell hint (by simp) _) fun counter κ1 h1 hcounter => ?_
  refine .bind (yields_store ((P.has_int _ 0).stored hint) (place_of_gives hint hcounter))
    fun _ κ2 h2 _ => ?_
  have hcounter := place_of_gives (P := P) hint (hcounter.mono h2)
  have hle := h1.trans h2
  refine yields_countedLoop (fun κ' h' T W O => ?_) fun κ' h' =>
    Offers.isArm (Q := fun _ _ => True) fun κ3 h3 T W O => ?_
  · refine .bind (yields_load (hcounter.mono h')) fun index κ3 h3 hindex => ?_
    exact .mono (yields_compare _ hindex (hcount.mono (hle.trans (h'.trans h3))))
      fun _ _ _ hmore => ⟨.cond, hmore, fun _ => rfl⟩
  · have h3 := h'.trans h3
    refine .bind (hinner (hle.trans h3) _ _ _) fun item κ4 h4 hitem => ?_
    have h4 := h3.trans h4
    refine .bind (yields_load (hcounter.mono h4)) fun index κ5 h5 hindex => ?_
    have h5' := h4.trans h5
    refine .bind (yields_elementAddress (harray.mono (hle.trans h5')) hindex helem)
      fun place κ6 h6 hplace => ?_
    refine .bind (yields_store (Has.stored ((hitem.mono h5).mono h6) helem) hplace)
      fun _ κ7 h7 _ => ?_
    refine .bind (yields_arith _ ((hindex.mono h6).mono h7) (P.has_int _ _))
      fun following κ8 h8 hfollowing => ?_
    exact yields_store (hfollowing.stored hint)
      (hcounter.mono (((h5'.trans h6).trans h7).trans h8))

/-- **An array**, of arrays if more than one count is given. -/
theorem yields_newArray (hsupport : ∀ symbol ∈ Linkage.support, P.vocabulary.calls symbol)
    {ty : Ty} {counts : List Operand} (hty : ty.IsKept)
    (hcounts : ∀ o ∈ counts, P.Value κ .word o) :
    Yields P κ T W O N (newArray ty counts) fun κ' o => P.Has κ' o ty := by
  induction counts generalizing κ T W O ty with
  | nil => exact .throw rfl
  | cons count inner ih =>
    unfold newArray
    have hcount := hcounts count (.head _)
    split
    · rename_i element helem
      have hobject : ∀ name, ty ≠ .object name := by
        rintro name rfl
        cases helem
      refine .bind (yields_arrayBytes hcount) fun bytes κ1 h1 hbytes => ?_
      refine .bind (yields_callValue (hsupport Linkage.allocate (by decide)) hbytes.argument
        (.inr trivial)) fun memory κ2 h2 hmemory => ?_
      have hint : Ty.int.IsKept := trivial
      refine .bind (yields_bitCast hmemory hint.pointerTo.flat (by simp [Ty.pointerTo]))
        fun header κ3 h3 hheader => ?_
      have h3 := (h1.trans h2).trans h3
      refine .bind (yields_store (hcount.mono h3).stored (hheader.place hint)) fun _ κ4 h4 _ => ?_
      refine .bind (yields_elementAddress (hheader.has.mono h4) (P.has_int _ _) hint)
        fun first κ5 h5 hfirst => ?_
      obtain ⟨_, hfirst⟩ := hfirst.has
      refine .bind (yields_bitCast hfirst hty.flat hobject) fun array κ6 h6 harray => ?_
      have h6 := ((h3.trans h4).trans h5).trans h6
      split
      · exact .pure harray.has
      · obtain ⟨_, hcount, -⟩ := hcount
        refine .bind (yields_fillArray harray.has (hcount.mono h6) (hty.pointee helem)
          fun κ' h' T W O => ?_) fun _ κ7 h7 _ => .pure (harray.has.mono h7)
        refine ih (hty.pointee helem) fun o ho => ?_
        exact (hcounts o (.tail _ ho)).mono (h6.trans h')
    · exact .throw rfl

theorem yields_arrayLength {ty : Ty} (h : P.Has κ array ty) :
    Yields P κ T W O N (arrayLength array) fun κ' o => P.Has κ' o .int := by
  have hint : Ty.int.IsKept := trivial
  refine .bind (yields_bitCast h hint.pointerTo.flat (by simp [Ty.pointerTo]))
    fun words κ1 h1 hwords => ?_
  refine .bind (yields_elementAddress hwords.has (P.has_int _ _) hint)
    fun header κ2 h2 hheader => ?_
  exact yields_load hheader

/-! ## The walk over expressions -/

theorem Ty.ofSource_of_className? (h : ty.className? = some className) :
    ofSource ty = .object className := by
  unfold Source.Ty.className? at h
  split at h
  · cases h
    rfl
  · cases h

theorem shape_of_arrayLength {ty : Source.Ty}
    (hcallee : ctx.methodCallee object method = .ok .arrayLength)
    (h : ((P.symbols.method? object method).any fun signature =>
      signature.takes arguments && ty = signature.returnType) = true) :
    (Ty.ofSource ty).shape = .word := by
  have harray : object.isArray = true := by
    unfold Context.methodCallee at hcallee
    repeat' split at hcallee
    all_goals first | assumption | cases hcallee
  obtain ⟨signature, hsignature, hty⟩ := Option.any_eq_true _ _ |>.mp h
  rw [Source.Symbols.method?, if_pos harray] at hsignature
  split at hsignature
  · cases hsignature
    simp only [Bool.and_eq_true, decide_eq_true_eq] at hty
    rw [hty.2]
    rfl
  · cases hsignature

theorem shape_of_methodCallee (h : ctx.methodCallee object method = .ok (.function symbol)) :
    (Ty.ofSource object).shape = .word := by
  unfold Context.methodCallee at h
  split at h
  · split at h <;> cases h
  · split at h
    · rename_i hstring
      exact Ty.shape_of_isString hstring
    · split at h
      · rename_i hclass
        rw [Ty.ofSource_of_className? hclass]
        rfl
      · cases h

mutual

/-- **An expression** offers something of the shape of its type. -/
theorem offers_lowerExpr {κ : Facts} (hctx : ctx.Suits P κ) (e : Expr)
    (htyped : P.typed → e.isWellTyped P.symbols P.owner N = true) :
    Offers P κ N (ctx.lowerExpr e) fun κ' => P.Stands κ' (Ty.ofSource e.ty).shape := by
  intro κ0 h0 T W O
  have hctx := hctx.mono h0
  cases e with
  | literal ty value =>
    rw [Context.lowerExpr]
    refine .map (.mono (yields_lowerLiteral value) fun _ o _ ho => ho.congr fun h => ?_)
    have hty := htyped h
    simp only [Source.Expr.isWellTyped, decide_eq_true_eq] at hty
    rw [Source.Expr.ty, hty]
  | this ty =>
    rw [Context.lowerExpr]
    split
    · rename_i receiver hrecv
      refine .pure ⟨_, has_of_gives (hctx.receiver receiver hrecv), fun h => ?_⟩
      have hty := htyped h
      simp only [Source.Expr.isWellTyped, Option.any_eq_true, decide_eq_true_eq] at hty
      obtain ⟨className, -, rfl⟩ := hty
      rfl
    · exact .throw rfl
  | ident ty name =>
    rw [Context.lowerExpr]
    have hname : P.typed → N name = some ty := fun h => by
      simpa [Source.Expr.isWellTyped] using htyped h
    exact .bind (yields_resolve hctx hname) fun place _ _ hplace => .pure hplace
  | binary ty op lhs rhs =>
    simp only [Source.Expr.isWellTyped, Bool.and_eq_true, decide_eq_true_eq] at htyped
    have hleft := offers_lowerExpr hctx lhs fun h => (htyped h).1.1
    have hright := offers_lowerExpr hctx rhs fun h => (htyped h).1.2
    rw [Context.lowerExpr]
    split
    · rename_i isAnd hop
      have htruth : P.typed → (Ty.ofSource lhs.ty).shape = .truth ∧
          (Ty.ofSource rhs.ty).shape = .truth ∧ (Ty.ofSource ty).shape = .truth := by
        intro h
        obtain ⟨hl, hr, rfl⟩ := typeOf?_of_logical hop (htyped h).2
        rw [hl, hr]
        exact ⟨rfl, rfl, rfl⟩
      refine .map (.mono (yields_shortCircuit (fun κ' h' T W O => ?_) fun κ' h' T W O => ?_)
        fun _ o _ ho => ho.value.congr fun h => (htruth h).2.2.symm)
      · exact .bind (hleft h' T W O) fun _ _ _ h =>
          yields_toCondition (h.congr fun h => (htruth h).1)
      · exact .bind (hright h' T W O) fun _ _ _ h =>
          yields_toStorage (h.congr fun h => (htruth h).2.1)
    · rename_i operation hop
      refine .bind (hleft (le_refl _) T W O) fun _ κ1 h1 hlhs => ?_
      refine .bind (yields_toValue hlhs) fun left κ2 h2 hleft => ?_
      refine .bind (hright (h1.trans h2) T W O) fun _ κ3 h3 hrhs => ?_
      refine .bind (yields_toValue hrhs) fun right κ4 h4 hright => ?_
      exact .map (yields_operate_arith hctx.covers.support hop (fun h => (htyped h).2)
        (hleft.mono (h3.trans h4)) hright)
    · rename_i condition hop
      refine .bind (hleft (le_refl _) T W O) fun _ κ1 h1 hlhs => ?_
      refine .bind (yields_toValue hlhs) fun left κ2 h2 hleft => ?_
      refine .bind (hright (h1.trans h2) T W O) fun _ κ3 h3 hrhs => ?_
      refine .bind (yields_toValue hrhs) fun right κ4 h4 hright => ?_
      exact .map (yields_operate_compare hctx.covers.support hop (fun h => (htyped h).2)
        (hleft.mono (h3.trans h4)) hright)
  | unary ty op operand =>
    simp only [Source.Expr.isWellTyped, Bool.and_eq_true, decide_eq_true_eq] at htyped
    rw [Context.lowerExpr]
    refine .bind (offers_lowerExpr hctx operand (fun h => (htyped h).1.1) (le_refl _) T W O)
      fun _ _ _ hoperand => ?_
    refine .mono (yields_lowerUnary (hoperand.congr fun h => ?_)) fun _ _ _ h => h.congr fun h => ?_
    · rw [(htyped h).1.2]
    · rw [Source.Expr.ty, (htyped h).2]
  | assign ty target value =>
    simp only [Source.Expr.isWellTyped, Bool.and_eq_true, decide_eq_true_eq] at htyped
    rw [Context.lowerExpr]
    refine .bind (offers_lowerExpr hctx value (fun h => (htyped h).1.1.2) (le_refl _) T W O)
      fun _ κ1 h1 hvalue => ?_
    refine .bind (yields_toValue hvalue) fun assigned κ2 h2 hassign => ?_
    refine .bind (offers_lowerExpr hctx target (fun h => (htyped h).1.1.1) (h1.trans h2) T W O)
      fun _ κ3 h3 htarget => ?_
    refine .bind (yields_toPlace htarget) fun place κ4 h4 hplace => ?_
    refine .bind (yields_asStorage (hassign.mono (h3.trans h4))) fun stored κ5 h5 hstored => ?_
    have hplace := hplace.mono h5
    refine .bind (yields_store hstored (hplace.congr fun h => ?_)) fun _ κ6 h6 _ =>
      .pure ((hplace.mono h6).congr fun h => ?_)
    · exact (Ty.shape_ofSource_of_accepts (htyped h).1.2).symm
    · rw [Source.Expr.ty, (htyped h).2]
  | choice ty condition positive negative =>
    simp only [Source.Expr.isWellTyped, Bool.and_eq_true, decide_eq_true_eq] at htyped
    rw [Context.lowerExpr]
    refine yields_choose (fun κ' h' T W O => ?_) (fun κ' h' T W O => ?_) fun κ' h' T W O => ?_
    · refine .bind (offers_lowerExpr hctx condition (fun h => (htyped h).1.1.1.1.1) h' T W O)
        fun _ _ _ h => yields_toCondition (h.congr fun h => ?_)
      rw [(htyped h).1.1.2]
      rfl
    · exact .mono (offers_lowerExpr hctx positive (fun h => (htyped h).1.1.1.1.2) h' T W O)
        fun _ _ _ h => h.congr fun h => Ty.shape_ofSource_of_accepts (htyped h).1.2
    · exact .mono (offers_lowerExpr hctx negative (fun h => (htyped h).1.1.1.2) h' T W O)
        fun _ _ _ h => h.congr fun h => Ty.shape_ofSource_of_accepts (htyped h).2
  | call ty function arguments =>
    simp only [Source.Expr.isWellTyped, Bool.and_eq_true] at htyped
    rw [Context.lowerExpr]
    refine .bind (.ofExcept fun _ => Context.isStructural_of_functionSymbol)
      fun symbol κ1 h1 hsymbol => ?_
    refine .bind (offers_lowerEach (S := fun κ' o => P.Passable κ' o)
      (fun _ _ _ h hle => h.mono hle) hctx
      arguments (fun _ _ _ _ _ _ _ ho => ?_) (fun h => (htyped h).1) h1 T W O)
        fun operands _ _ h => ?_
    · exact .mono (yields_asStorage ho) fun _ _ _ h => h.passable
    · exact yields_callResult (hctx.covers.functionSymbol hsymbol) h
  | callMethod ty object method arguments =>
    simp only [Source.Expr.isWellTyped, Bool.and_eq_true] at htyped
    have hobject := offers_lowerExpr hctx object fun h => (htyped h).1.1
    rw [Context.lowerExpr]
    refine .bind (.ofExcept fun _ => Context.isStructural_of_methodCallee)
      fun callee κ1 h1 hcallee => ?_
    split
    · refine .map (.bind (hobject h1 T W O) fun _ _ _ hobject => ?_)
      refine .bind (yields_toValue hobject) fun array _ _ harray => ?_
      obtain ⟨_, harray, -⟩ := harray
      refine .mono (yields_arrayLength harray) fun _ o _ ho => ho.shaped.congr fun h => ?_
      exact (shape_of_arrayLength hcallee (htyped h).2).symm
    · refine .bind (hobject h1 T W O) fun _ κ2 h2 hobject => ?_
      refine .bind (yields_toValue hobject) fun this κ3 h3 hthis => ?_
      refine .bind (offers_lowerEach (S := fun κ' o => P.Passable κ' o)
        (fun _ _ _ h hle => h.mono hle)
        hctx arguments (fun _ _ _ _ _ _ _ ho => ?_) (fun h => (htyped h).1.2)
        ((h1.trans h2).trans h3) T W O) fun operands κ4 h4 h => ?_
      · exact .mono (yields_asStorage ho) fun _ _ _ h => h.passable
      · refine yields_callResult (hctx.covers.methodCallee hcallee)
          (List.forall_mem_cons.mpr ⟨?_, h⟩)
        exact ((hthis.mono h4).congr fun _ => shape_of_methodCallee hcallee).stored.passable
  | element ty array position =>
    simp only [Source.Expr.isWellTyped, Bool.and_eq_true] at htyped
    rw [Context.lowerExpr]
    refine .bind (offers_lowerExpr hctx array (fun h => (htyped h).1.1.1) (le_refl _) T W O)
      fun _ κ1 h1 harray => ?_
    refine .bind (yields_toValue harray) fun base κ2 h2 hbase => ?_
    refine .bind (offers_lowerExpr hctx position (fun h => (htyped h).1.1.2) (h1.trans h2) T W O)
      fun _ κ3 h3 hat => ?_
    refine .bind (yields_toValue hat) fun index κ4 h4 hindex => ?_
    obtain ⟨_, hbase, -⟩ := hbase
    obtain ⟨_, hindex, -⟩ := hindex
    exact .bind (yields_elementAddress (hbase.mono (h3.trans h4)) hindex (Ty.isKept_ofSource ty))
      fun _ _ _ haddr => .pure haddr
  | member ty object field =>
    simp only [Source.Expr.isWellTyped, Bool.and_eq_true, Option.any_eq_true,
      decide_eq_true_eq] at htyped
    rw [Context.lowerExpr]
    split
    · rename_i className hclass
      refine .bind (offers_lowerExpr hctx object (fun h => (htyped h).1) (le_refl _) T W O)
        fun _ κ1 h1 hobject => ?_
      refine .bind (yields_toValue hobject) fun base κ2 h2 hbase => ?_
      obtain ⟨_, hbase, -⟩ := hbase
      refine .bind (yields_memberAddress (hctx.mono (h1.trans h2)) hbase)
        fun place _ _ hplace => .pure ?_
      obtain ⟨source, hsource, hplace⟩ := hplace
      refine hplace.congr fun h => ?_
      obtain ⟨className', hclass', hty⟩ := (htyped h).2
      rw [hclass] at hclass'
      cases hclass'
      rw [Option.mem_unique hsource hty]
      rfl
    · exact .throw rfl
  | new ty allocated counts =>
    simp only [Source.Expr.isWellTyped, Bool.and_eq_true, decide_eq_true_eq, List.all_eq_true]
      at htyped
    rw [Context.lowerExpr]
    split
    · refine .bind (offers_lowerEach (S := fun κ' o => P.Value κ' .word o)
        (fun _ _ _ h hle => h.mono hle)
        hctx counts (fun _ _ _ _ e he o ho => ?_) (fun h => (htyped h).1.1.1) (le_refl _) T W O)
        fun operands _ _ h => ?_
      · exact .pure (ho.congr fun h => by rw [(htyped h).1.1.2 e he]; rfl)
      · refine .map (.mono (yields_newArray hctx.covers.support (Ty.isKept_ofSource allocated) h)
          fun _ o _ ho => ho.shaped.congr fun h => ?_)
        rw [Source.Expr.ty, (htyped h).2]
    · split
      · rename_i className hclass
        refine .map (.mono (yields_newObject hctx) fun _ o _ ho => ho.shaped.congr fun h => ?_)
        rw [Source.Expr.ty, (htyped h).2, Ty.ofSource_of_className? hclass]
      · exact .throw rfl

/-- Expressions are lowered in order, and what each gives stays known. -/
theorem offers_lowerEach {κ : Facts} {S : Facts → Operand → Prop}
    (hmono : ∀ κ κ' o, S κ o → κ ≤ κ' → S κ' o) {finish : Operand → Build Operand}
    (hctx : ctx.Suits P κ) (es : List Expr)
    (hfinish : ∀ κ' T W O, ∀ e ∈ es, ∀ o, P.Value κ' (Ty.ofSource e.ty).shape o →
      Yields P κ' T W O N (finish o) S)
    (htyped : P.typed → Source.Expr.areWellTyped P.symbols P.owner N es = true) :
    Offers P κ N (ctx.lowerEach finish es) fun κ' operands => ∀ o ∈ operands, S κ' o := by
  intro κ0 h0 T W O
  cases es with
  | nil =>
    rw [Context.lowerEach]
    exact .pure (by simp)
  | cons e rest =>
    simp only [Source.Expr.areWellTyped, Bool.and_eq_true] at htyped
    rw [Context.lowerEach]
    refine .bind (offers_lowerExpr hctx e (fun h => (htyped h).1) h0 T W O)
      fun _ κ1 h1 hlow => ?_
    refine .bind (yields_toValue hlow) fun value κ2 h2 hvalue => ?_
    refine .bind (hfinish _ _ _ _ e (.head _) value hvalue) fun value κ3 h3 hvalue => ?_
    have h3 := ((h0.trans h1).trans h2).trans h3
    refine .bind (offers_lowerEach hmono hctx rest
      (fun κ' T W O e he => hfinish κ' T W O e (.tail _ he)) (fun h => (htyped h).2) h3 T W O)
      fun operands κ4 h4 h => .pure ?_
    exact List.forall_mem_cons.mpr ⟨hmono _ _ _ hvalue h4, h⟩

end

end

end MxStar.Flow
