import MxStar.Proofs.Flow.Building
import MxStar.Proofs.Source.Eval

/-!
# Variables in stack cells

A flow graph keeps each variable of the source in a stack cell, while an
evaluation keeps it in a frame.  `Setting.Agrees` is the relation between the two
states: every variable in scope has its value in its cell, and outside of the cells
memory is the same.

This holds up because the cells of a function are its own: they overlap neither each
other nor a global, and no called function sees or changes them
(`Environment.Shelters`).  So a write to one cell changes one variable, and a call
changes none.
-/

namespace MxStar.Flow

open Source (Symbols Typing)

open Machine (Width)

namespace Ty

/-- Numbers, and truth values in storage form. -/
def IsScalar (ty : Ty) : Prop :=
  ty = .int ∨ ty = .bool

def Admits (ty : Ty) (w : Word) : Prop :=
  ty = .bool → w = 0 ∨ w = 1

/-- How much memory an access moves. -/
def width (ty : Ty) : Width :=
  .ofSize ty.size

variable {ty : Ty}

section

variable (h : ty.IsScalar)
include h

theorem IsScalar.width? : ty.width? = some ty.width := by
  rcases h with rfl | rfl <;> rfl

theorem IsScalar.isHollow : ty.isHollow = false := by
  rcases h with rfl | rfl <;> rfl

theorem IsScalar.admits_zero : ty.Admits ty.zero.bits := by
  rcases h with rfl | rfl
  · intro heq
    simp at heq
  · exact fun _ => .inl rfl

theorem IsScalar.bits_zero : ty.zero.bits = 0 := by
  rcases h with rfl | rfl <;> rfl

end

theorem isPointer_pointers (n : Nat) (h : ty.isPointer = true) :
    (pointers n ty).isPointer = true := by
  induction n generalizing ty with
  | zero => exact h
  | succ n ih =>
    refine ih ?_
    cases ty <;> rfl

theorem IsScalar.of_ofSource {ty : Source.Ty} (h : (ofSource ty).IsScalar) :
    ty.isScalar = true := by
  obtain ⟨base, dimensions⟩ := ty
  cases dimensions with
  | zero =>
    rcases h with h | h <;> cases base <;>
      first
      | rfl
      | simp [ofSource, pointers, ofBase, anyPointer] at h
  | succ n =>
    have hpointer : (ofSource ⟨base, n + 1⟩).isPointer = true :=
      isPointer_pointers n (by cases base <;> rfl)
    rcases h with h | h <;> simp [h, isPointer] at hpointer

theorem isScalar_ofSource {ty : Source.Ty} (h : ty.isScalar = true) : (ofSource ty).IsScalar := by
  simp only [Source.Ty.isScalar, Bool.or_eq_true, decide_eq_true_eq] at h
  rcases h with rfl | rfl
  · exact .inl rfl
  · exact .inr rfl

theorem width_ofSource {ty : Source.Ty} (h : ty.isScalar = true) :
    (ofSource ty).width = ty.width := by
  simp only [Source.Ty.isScalar, Bool.or_eq_true, decide_eq_true_eq] at h
  rcases h with rfl | rfl <;> rfl

theorem ofSource_eq_bool {ty : Source.Ty} : ofSource ty = .bool ↔ ty = .bool := by
  constructor
  · intro h
    have hkept : (ofSource ty).IsScalar := .inr h
    have hscalar := hkept.of_ofSource
    simp only [Source.Ty.isScalar, Bool.or_eq_true, decide_eq_true_eq] at hscalar
    rcases hscalar with rfl | hbool
    · simp [ofSource, pointers, ofBase, Source.Ty.int] at h
    · exact hbool
  · intro h
    subst h
    rfl

theorem admits_ofSource {ty : Source.Ty} : (ofSource ty).Admits w ↔ ty.Admits w := by
  simp only [Admits, Source.Ty.Admits, ofSource_eq_bool]

theorem IsScalar.read_write (h : ty.IsScalar) (m : Memory) (a : Word) (hw : ty.Admits w) :
    (m.write ty.width a w).read ty.width a = w := by
  rcases h with rfl | rfl
  · exact m.read_write_word a w
  · exact m.read_write_byte a (hw rfl)

end Ty

def Program.global? (p : Program) (name : String) : Option Global :=
  p.globals.find? fun g => g.name == name

def Action.call? : Action → Option (String × List Word)
  | .call function arguments => some (function, arguments)
  | _ => none

def State.calls {World : Type} (s : State World) : List (String × List Word) :=
  s.trace.filterMap Action.call?

section

variable {World : Type} {c : Cell}

/-- Whether an address belongs to a stack cell of the function. -/
def Function.InCell (f : Function) (E : Environment World) (b : Word) : Prop :=
  ∃ (n : Nat) (c : Cell), f.cells[n]? = some c ∧ c.ty.width.Covers (E.cell n) b

namespace Environment

/-- Globals of type `bool` hold truth values. -/
def Truthful (E : Environment World) (p : Program) (m : Memory) : Prop :=
  ∀ name g, p.global? name = some g → g.ty.Admits (m.read g.ty.width (E.global name))

/-- The surroundings leave a function its stack cells, and called functions keep to
their types. -/
structure Shelters (E : Environment World) (symbols : Symbols) (p : Program)
    (f : Function) : Prop where
  /-- No two stack cells overlap -/
  cells : ∀ (n m : Nat) c d, f.cells[n]? = some c → f.cells[m]? = some d → n ≠ m →
    ∀ b, c.ty.width.Covers (E.cell n) b → ¬ d.ty.width.Covers (E.cell m) b
  /-- No global overlaps a stack cell -/
  globals : ∀ name g, p.global? name = some g →
    ∀ b, g.ty.width.Covers (E.global name) b → ¬ f.InCell E b
  /-- No two globals overlap -/
  apart : ∀ name name' g g', p.global? name = some g → p.global? name' = some g' → name ≠ name' →
    ∀ b, g.ty.width.Covers (E.global name) b → ¬ g'.ty.width.Covers (E.global name') b
  /-- A call leaves the stack cells alone -/
  kept : ∀ world function arguments m world' m' result,
    E.call world function arguments m = some (world', m', result) → ∀ b, f.InCell E b → m' b = m b
  /-- and does not depend on what they hold -/
  unseen : ∀ world function arguments m1 m2 world' m1' result,
    (∀ b, ¬ f.InCell E b → m1 b = m2 b) →
      E.call world function arguments m1 = some (world', m1', result) →
        ∃ m2', E.call world function arguments m2 = some (world', m2', result) ∧
          ∀ b, ¬ f.InCell E b → m1' b = m2' b
  /-- A function of type `bool` gives back a truth value -/
  results : ∀ world function arguments m world' m' result signature,
    E.call world function arguments m = some (world', m', result) →
      symbols.signature? function = some signature → signature.returnType.Admits result
  /-- After a call, globals hold truth values if they did before -/
  truths : ∀ world function arguments m world' m' result,
    E.call world function arguments m = some (world', m', result) → E.Truthful p m → E.Truthful p m'

end Environment

/-! ## Agreement -/

/-- A finished function in its surroundings. -/
structure Setting (World : Type) where
  environment : Environment World
  program : Program
  function : Function
  /-- The register of the cell for the result, unless there is none -/
  result : Option RegisterId

namespace Setting

/-- Everything but the variables is the same. -/
structure Seen (X : Setting World) (st : Source.State World) (fs : State World) : Prop where
  memory : ∀ b, ¬ X.function.InCell X.environment b → fs.memory b = st.memory b
  world : fs.world = st.world
  calls : fs.calls = st.calls

/-- A variable has its value in its cell. -/
inductive VarAgrees (X : Setting World) (m : Memory) :
    Option (Storage × Ty) → Option (Option Word) → Prop
  | absent : VarAgrees X m none none
  | present (n : Nat) (c : Cell) (value : Option Word) (hc : X.function.cells[n]? = some c)
    (hscalar : c.ty.IsScalar)
    (hvalue : ∀ w, value = some w → c.ty.Admits w ∧ m.read c.ty.width (X.environment.cell n) = w) :
    VarAgrees X m (some (.cell c.register, c.ty)) (some value)

/-- The variables of a region have their values in their cells. -/
def ScopeAgrees (X : Setting World) (m : Memory) (scope : Scope) (frame : Source.Frame) : Prop :=
  ∀ name, X.VarAgrees m scope.names[name]? (frame name)

/-- The states of a run and of an evaluation agree. -/
structure Agrees (X : Setting World) (scopes : ScopeStack) (st : Source.State World)
    (fs : State World) : Prop extends X.Seen st fs where
  /-- Cells have their addresses -/
  cells : ∀ (n : Nat) c, X.function.cells[n]? = some c →
    fs.registers c.register = some (X.environment.cell n)
  truth : X.environment.Truthful X.program st.memory
  vars : List.Forall₂ (X.ScopeAgrees fs.memory) scopes.scopes st.frames
  /-- The cell for the result holds zero -/
  result : ∀ (n : Nat) c, X.function.cells[n]? = some c → X.result = some c.register →
    fs.memory.read c.ty.width (X.environment.cell n) = 0

variable {X : Setting World} {m : Memory} {scopes : ScopeStack} {st : Source.State World}
  {fs : State World}

theorem VarAgrees.of_some (h : X.VarAgrees m (some (storage, ty)) value) :
    ∃ (n : Nat) (c : Cell) (v : Option Word), X.function.cells[n]? = some c ∧
      storage = .cell c.register ∧ ty = c.ty ∧ c.ty.IsScalar ∧ value = some v ∧
      ∀ w, v = some w → c.ty.Admits w ∧ m.read c.ty.width (X.environment.cell n) = w := by
  cases h with
  | present n c v hc hscalar hvalue => exact ⟨n, c, v, hc, rfl, rfl, hscalar, rfl, hvalue⟩

theorem VarAgrees.of_none (h : X.VarAgrees m none value) : value = none := by
  cases h
  rfl

theorem varAgrees_lookup {scopes : List Scope} (h : List.Forall₂ (X.ScopeAgrees m) scopes frames)
    (name : String) :
    X.VarAgrees m (ScopeStack.resolve? ⟨scopes⟩ name) (Source.lookup frames name) := by
  induction h with
  | nil => exact .absent
  | @cons scope frame scopes frames hhead _ ih =>
    have hname := hhead name
    simp only [ScopeStack.resolve?, List.findSome?_cons, Source.lookup]
    generalize scope.names[name]? = entry at hname
    generalize frame name = value at hname
    cases hname with
    | absent => exact ih
    | present n c value hc hscalar hvalue => exact .present n c value hc hscalar hvalue

end Setting

/-! ## Cells of variables -/

/-- Whether a variable of the region lives in the cell of the register. -/
def Scope.Uses (scope : Scope) (r : RegisterId) : Prop :=
  ∃ (name : String) (ty : Ty), scope.names[name]? = some (Storage.cell r, ty)

/-- Each variable has a cell of its own. -/
structure ScopeStack.Placed (scopes : ScopeStack) (f : Function) : Prop where
  cells : ∀ scope ∈ scopes.scopes, ∀ (name : String) storage ty,
    scope.names[name]? = some (storage, ty) →
      ∃ (n : Nat) (c : Cell), f.cells[n]? = some c ∧ storage = .cell c.register ∧ ty = c.ty
  own : ∀ scope ∈ scopes.scopes, ∀ (name name' : String) r ty ty',
    scope.names[name]? = some (Storage.cell r, ty) →
      scope.names[name']? = some (Storage.cell r, ty') → name = name'
  apart : scopes.scopes.Pairwise fun s t => ∀ r, s.Uses r → ¬ t.Uses r

namespace ScopeStack.Placed

variable {scopes : ScopeStack} {f : Function}

variable (h : scopes.Placed f)
include h

theorem mono (hcells : ∀ (n : Nat) c, f.cells[n]? = some c →
    f'.cells[n]? = some c) : scopes.Placed f' where
  cells := by
    intro scope hscope name storage ty hname
    obtain ⟨n, c, hc, hstorage, hty⟩ := h.cells scope hscope name storage ty hname
    exact ⟨n, c, hcells n c hc, hstorage, hty⟩
  own := h.own
  apart := h.apart

theorem push (loop : Option LoopTargets) : ScopeStack.Placed ⟨{ loop } :: scopes.scopes⟩ f where
  cells := by
    intro scope hscope name storage ty hname
    rcases List.mem_cons.mp hscope with rfl | hscope
    · simp at hname
    · exact h.cells scope hscope name storage ty hname
  own := by
    intro scope hscope name name' r ty ty' hname hname'
    rcases List.mem_cons.mp hscope with rfl | hscope
    · simp at hname
    · exact h.own scope hscope name name' r ty ty' hname hname'
  apart := by
    refine List.pairwise_cons.mpr ⟨fun t _ r huses => ?_, h.apart⟩
    obtain ⟨name, ty, hname⟩ := huses
    simp at hname

theorem pop : scopes.pop.Placed f where
  cells := fun scope hscope => h.cells scope (List.mem_of_mem_tail hscope)
  own := fun scope hscope => h.own scope (List.mem_of_mem_tail hscope)
  apart := h.apart.tail

theorem ne_of_uses (hr : ∀ (n : Nat) c, f.cells[n]? = some c → c.register ≠ r)
    (hscope : scope ∈ scopes.scopes) : ¬ scope.Uses r := by
  intro huses
  obtain ⟨name, ty, hname⟩ := huses
  obtain ⟨n, c, hc, hstorage, -⟩ := h.cells scope hscope name _ ty hname
  exact hr n c hc (Storage.cell.inj hstorage).symm

end ScopeStack.Placed

theorem Scope.getElem?_insert (scope : Scope) (name other : String) (entry : Storage × Ty) :
    (scope.names.insert name entry)[other]? =
      if name = other then some entry else scope.names[other]? := by
  simp only [Std.ExtTreeMap.getElem?_insert, Std.compare_eq_iff_eq]

theorem ScopeStack.Placed.declare {scopes : ScopeStack} {f : Function} (h : scopes.Placed f)
    {n : Nat} (hc : f.cells[n]? = some c)
    (hspare : ∀ scope ∈ scopes.scopes, ¬ scope.Uses c.register) (name : String) :
    (scopes.declare name (.cell c.register) c.ty).Placed f := by
  rcases scopes with ⟨_ | ⟨scope, outer⟩⟩
  · refine ⟨?_, ?_, List.pairwise_singleton _ _⟩
    · intro scope hscope other storage ty hother
      obtain rfl := List.mem_singleton.mp hscope
      simp only [Std.ExtTreeMap.getElem?_insert, Std.compare_eq_iff_eq] at hother
      split at hother
      · cases hother
        exact ⟨n, c, hc, rfl, rfl⟩
      · simp at hother
    · intro scope hscope other other' r ty ty' hother hother'
      obtain rfl := List.mem_singleton.mp hscope
      simp only [Std.ExtTreeMap.getElem?_insert, Std.compare_eq_iff_eq] at hother hother'
      split at hother <;> split at hother' <;> simp_all
  · have hhead := hspare scope (.head _)
    refine ⟨?_, ?_, ?_⟩
    · intro t ht other storage ty hother
      rcases List.mem_cons.mp ht with rfl | ht
      · rw [Scope.getElem?_insert] at hother
        split at hother
        · cases hother
          exact ⟨n, c, hc, rfl, rfl⟩
        · exact h.cells scope (.head _) other storage ty hother
      · exact h.cells t (.tail _ ht) other storage ty hother
    · intro t ht other other' r ty ty' hother hother'
      rcases List.mem_cons.mp ht with rfl | ht
      · rw [Scope.getElem?_insert] at hother hother'
        split at hother <;> split at hother'
        · simp_all
        · obtain ⟨hr, -⟩ := Prod.mk.inj (Option.some.inj hother)
          obtain rfl := Storage.cell.inj hr
          exact absurd ⟨other', ty', hother'⟩ hhead
        · obtain ⟨hr, -⟩ := Prod.mk.inj (Option.some.inj hother')
          obtain rfl := Storage.cell.inj hr
          exact absurd ⟨other, ty, hother⟩ hhead
        · exact h.own scope (.head _) other other' r ty ty' hother hother'
      · exact h.own t (.tail _ ht) other other' r ty ty' hother hother'
    · obtain ⟨hcross, houter⟩ := List.pairwise_cons.mp h.apart
      refine List.pairwise_cons.mpr ⟨fun t ht r huses => ?_, houter⟩
      obtain ⟨other, ty, hother⟩ := huses
      rw [Scope.getElem?_insert] at hother
      split at hother
      · obtain ⟨hr, -⟩ := Prod.mk.inj (Option.some.inj hother)
        obtain rfl := Storage.cell.inj hr
        exact hspare t (.tail _ ht)
      · exact hcross t ht r ⟨other, ty, hother⟩

/-! ## What keeps the agreement -/

namespace Setting

variable {X : Setting World} {symbols : Symbols} {scopes : ScopeStack}
  {st : Source.State World} {fs : State World} {n : Nat} {m : Memory} {frames : List Source.Frame}

section

variable (hshelters : X.environment.Shelters symbols X.program X.function)
include hshelters

theorem read_write_of_ne {m : Nat} {c : Cell} (hc : X.function.cells[n]? = some c)
    (hd : X.function.cells[m]? = some d) (hne : n ≠ m) (memory : Memory) (w : Word) :
    (memory.write c.ty.width (X.environment.cell n) w).read d.ty.width (X.environment.cell m) =
      memory.read d.ty.width (X.environment.cell m) := by
  refine Memory.read_congr fun b hb => Memory.write_of_not_covers fun hb' => ?_
  exact hshelters.cells n m c d hc hd hne b hb' hb

variable (hc : X.function.cells[n]? = some c)
include hc

theorem VarAgrees.write (h : X.VarAgrees m entry value)
    (hne : ∀ ty, entry ≠ some (.cell c.register, ty)) (w : Word) :
    X.VarAgrees (m.write c.ty.width (X.environment.cell n) w) entry value := by
  cases h with
  | absent => exact .absent
  | present k d value hd hscalar hvalue =>
    refine .present k d value hd hscalar fun v hv => ?_
    obtain ⟨hadmits, hread⟩ := hvalue v hv
    refine ⟨hadmits, ?_⟩
    rw [read_write_of_ne hshelters hc hd, hread]
    intro hnk
    subst hnk
    obtain rfl := Option.mem_unique hc hd
    exact hne c.ty rfl

theorem ScopeAgrees.write (h : X.ScopeAgrees m scope frame) (hspare : ¬ scope.Uses c.register)
    (w : Word) : X.ScopeAgrees (m.write c.ty.width (X.environment.cell n) w) scope frame := by
  intro name
  refine (h name).write hshelters hc (fun ty hname => ?_) w
  exact hspare ⟨name, ty, hname⟩

theorem vars_write {scopes : List Scope} (h : List.Forall₂ (X.ScopeAgrees m) scopes frames)
    (hspare : ∀ scope ∈ scopes, ¬ scope.Uses c.register) (w : Word) :
    List.Forall₂ (X.ScopeAgrees (m.write c.ty.width (X.environment.cell n) w)) scopes frames := by
  induction h with
  | nil => exact .nil
  | cons hhead _ ih =>
    refine .cons (hhead.write hshelters hc (hspare _ (.head _)) w) ?_
    exact ih fun scope hscope => hspare scope (.tail _ hscope)

end

/-- A cell that neither a variable nor the result uses. -/
structure Spare (X : Setting World) (scopes : ScopeStack) (r : RegisterId) : Prop where
  unused : ∀ scope ∈ scopes.scopes, ¬ scope.Uses r
  result : X.result ≠ some r

theorem Seen.store_cell (h : X.Seen st fs) (hc : X.function.cells[n]? = some c) (w : Word) :
    X.Seen st (fs.store c.ty.width (X.environment.cell n) w) where
  memory := by
    intro b hb
    have hcovers : ¬ c.ty.width.Covers (X.environment.cell n) b := fun hb' => hb ⟨n, c, hc, hb'⟩
    exact (Memory.write_of_not_covers hcovers).trans (h.memory b hb)
  world := h.world
  calls := h.calls

section

variable (hshelters : X.environment.Shelters symbols X.program X.function)
include hshelters

theorem Agrees.store_spare (h : X.Agrees scopes st fs) (hc : X.function.cells[n]? = some c)
    (hspare : X.Spare scopes c.register) (w : Word) :
    X.Agrees scopes st (fs.store c.ty.width (X.environment.cell n) w) where
  toSeen := h.toSeen.store_cell hc w
  cells := h.cells
  truth := h.truth
  vars := vars_write hshelters hc h.vars hspare.unused w
  result := by
    intro m d hd hresult
    have hne : n ≠ m := by
      intro hnm
      subst hnm
      obtain rfl := Option.mem_unique hc hd
      exact hspare.result hresult
    exact (read_write_of_ne hshelters hc hd hne fs.memory w).trans (h.result m d hd hresult)

theorem vars_assign (hc : X.function.cells[n]? = some c) (hw : c.ty.Admits w) {scopes : List Scope}
    (h : List.Forall₂ (X.ScopeAgrees m) scopes frames)
    (hown : ScopeStack.Placed ⟨scopes⟩ X.function)
    (hname : ScopeStack.resolve? ⟨scopes⟩ name = some (.cell c.register, c.ty)) :
    List.Forall₂ (X.ScopeAgrees (m.write c.ty.width (X.environment.cell n) w)) scopes
      (Source.assign frames name w) := by
  induction h with
  | nil => simp [ScopeStack.resolve?] at hname
  | @cons scope frame scopes frames hhead htail ih =>
    obtain ⟨hcross, -⟩ := List.pairwise_cons.mp hown.apart
    simp only [ScopeStack.resolve?, List.findSome?_cons] at hname
    have hentry := hhead name
    cases hfound : scope.names[name]? with
    | none =>
      rw [hfound] at hname hentry
      simp only [Source.assign, hentry.of_none]
      -- the variable is further out, and this scope does not share its cell
      obtain ⟨t, ht, htname⟩ := List.exists_of_findSome?_eq_some hname
      have hspare : ¬ scope.Uses c.register := fun huses => hcross t ht _ huses ⟨name, c.ty, htname⟩
      exact .cons (hhead.write hshelters hc hspare w) (ih hown.pop hname)
    | some entry =>
      rw [hfound] at hname hentry
      obtain rfl : entry = (.cell c.register, c.ty) := Option.some.inj hname
      obtain ⟨_, d, v, _, _, hty, hscalar, hframe, _⟩ := hentry.of_some
      rw [← hty] at hscalar
      simp only [Source.assign, hframe, Option.isSome_some, if_true]
      refine .cons (fun other => ?_) ?_
      · simp only [Source.Frame.set]
        by_cases hother : other = name
        · subst hother
          rw [hfound, if_pos rfl]
          refine .present n c (some w) hc hscalar fun v hv => ?_
          cases hv
          exact ⟨hw, hscalar.read_write m _ hw⟩
        · rw [if_neg hother]
          refine (hhead other).write hshelters hc (fun ty hname' => ?_) w
          exact hother (hown.own scope (.head _) other name _ ty c.ty hname' hfound)
      · exact vars_write hshelters hc htail (fun t ht => hcross t ht _ ⟨name, c.ty, hfound⟩) w

end

theorem vars_congr (hm : ∀ b, X.function.InCell X.environment b → m b = m' b) {scopes : List Scope}
    (h : List.Forall₂ (X.ScopeAgrees m) scopes frames) :
    List.Forall₂ (X.ScopeAgrees m') scopes frames := by
  refine h.imp fun scope frame hagrees name => ?_
  have hentry := hagrees name
  generalize scope.names[name]? = entry at hentry
  generalize frame name = value at hentry
  cases hentry with
  | absent => exact .absent
  | present n c v hc hscalar hvalue =>
    refine .present n c v hc hscalar fun w hw => ?_
    obtain ⟨hadmits, hread⟩ := hvalue w hw
    exact ⟨hadmits, (Memory.read_congr fun b hb => (hm b ⟨n, c, hc, hb⟩).symm).trans hread⟩

section

variable (hshelters : X.environment.Shelters symbols X.program X.function)
  (h : X.Agrees scopes st fs)
include hshelters h

theorem Agrees.store_var (hown : scopes.Placed X.function) (hc : X.function.cells[n]? = some c)
    (hresult : X.result ≠ some c.register)
    (hname : scopes.resolve? name = some (.cell c.register, c.ty)) (hw : c.ty.Admits w) :
    X.Agrees scopes { st with frames := Source.assign st.frames name w }
      (fs.store c.ty.width (X.environment.cell n) w) where
  memory := (h.toSeen.store_cell hc w).memory
  world := h.world
  calls := h.calls
  cells := h.cells
  truth := h.truth
  vars := vars_assign hshelters hc hw h.vars hown hname
  result := by
    intro m d hd hr
    have hne : n ≠ m := by
      intro hnm
      subst hnm
      obtain rfl := Option.mem_unique hc hd
      exact hresult hr
    exact (read_write_of_ne hshelters hc hd hne fs.memory w).trans (h.result m d hd hr)

theorem Agrees.store_global (hg : X.program.global? name = some g) (hscalar : g.ty.IsScalar)
    (hw : g.ty.Admits w) :
    X.Agrees scopes { st with memory := st.memory.write g.ty.width (X.environment.global name) w }
      (fs.store g.ty.width (X.environment.global name) w) where
  memory := fun b hb => Memory.write_congr (h.memory b hb)
  world := h.world
  calls := h.calls
  cells := h.cells
  truth := by
    intro other g' hg'
    by_cases hother : name = other
    · subst hother
      obtain rfl := Option.mem_unique hg hg'
      rw [hscalar.read_write _ _ hw]
      exact hw
    · rw [Memory.read_congr fun b hb => Memory.write_of_not_covers fun hb' =>
        hshelters.apart name other g g' hg hg' hother b hb' hb]
      exact h.truth other g' hg'
  vars := by
    refine vars_congr (fun b hb => ?_) h.vars
    exact (Memory.write_of_not_covers fun hb' => hshelters.globals name g hg b hb' hb).symm
  result := by
    intro n c hc hr
    refine (Memory.read_congr fun b hb => ?_).trans (h.result n c hc hr)
    exact Memory.write_of_not_covers fun hb' =>
      hshelters.globals name g hg b hb' ⟨n, c, hc, hb⟩

end

theorem Agrees.assign (h : X.Agrees scopes st fs)
    (hd : ∀ (n : Nat) c, X.function.cells[n]? = some c → c.register ≠ d) (w : Word) :
    X.Agrees scopes st (fs.assign d w) :=
  { h with
    cells := by
      intro n c hc
      simp only [State.assign, if_neg (hd n c hc)]
      exact h.cells n c hc }

section

variable (hshelters : X.environment.Shelters symbols X.program X.function)
  (h : X.Agrees scopes st fs)
include hshelters h

variable {function : String}

theorem Agrees.call {result : Word}
    (hcall : X.environment.call st.world function arguments st.memory =
      some (world, memory, result)) :
    ∃ memory', X.environment.call fs.world function arguments fs.memory =
        some (world, memory', result) ∧
      X.Agrees scopes { st with calls := (function, arguments) :: st.calls, world, memory }
        { fs with trace := .call function arguments :: fs.trace, world, memory := memory' } := by
  obtain ⟨memory', hcall', hmemory⟩ :=
    hshelters.unseen _ _ _ _ fs.memory _ _ _ (fun b hb => (h.memory b hb).symm) hcall
  rw [← h.world] at hcall'
  have hkept := hshelters.kept _ _ _ _ _ _ _ hcall'
  refine ⟨memory', hcall', ?_⟩
  exact
    { memory := fun b hb => (hmemory b hb).symm
      world := rfl
      calls := congrArg ((function, arguments) :: ·) h.calls
      cells := h.cells
      truth := hshelters.truths _ _ _ _ _ _ _ hcall h.truth
      vars := vars_congr (fun b hb => (hkept b hb).symm) h.vars
      result := by
        intro n c hc hr
        exact (Memory.read_congr fun b hb => hkept b ⟨n, c, hc, hb⟩).trans (h.result n c hc hr) }

theorem Agrees.call_none (hcall : X.environment.call st.world function arguments st.memory = none) :
    X.environment.call fs.world function arguments fs.memory = none ∧
      X.Seen { st with calls := (function, arguments) :: st.calls }
        { fs with trace := .call function arguments :: fs.trace } := by
  refine ⟨?_, h.memory, h.world, congrArg ((function, arguments) :: ·) h.calls⟩
  cases hcall' : X.environment.call fs.world function arguments fs.memory with
  | none => rfl
  | some answer =>
    obtain ⟨world, memory, result⟩ := answer
    obtain ⟨_, hback, -⟩ := hshelters.unseen _ _ _ _ st.memory _ _ _ h.memory hcall'
    rw [h.world, hcall] at hback
    simp at hback

end

/-! ## Regions and declarations -/

theorem Agrees.push (h : X.Agrees scopes st fs) (loop : Option LoopTargets) :
    X.Agrees ⟨{ loop } :: scopes.scopes⟩ { st with frames := (fun _ => none) :: st.frames } fs :=
  { h with vars := .cons (fun name => by simpa using VarAgrees.absent) h.vars }

theorem Agrees.pop (h : X.Agrees scopes st fs) :
    X.Agrees scopes.pop { st with frames := st.frames.tail } fs := by
  refine { h with vars := ?_ }
  have hvars := h.vars
  simp only [ScopeStack.pop]
  generalize scopes.scopes = inner at hvars
  generalize st.frames = frames at hvars
  cases hvars with
  | nil => exact .nil
  | cons _ htail => exact htail

theorem Agrees.declare (h : X.Agrees scopes st fs) (hc : X.function.cells[n]? = some c)
    (hscalar : c.ty.IsScalar) {value : Option Word}
    (hvalue : ∀ w, value = some w → c.ty.Admits w ∧ fs.memory.read c.ty.width
      (X.environment.cell n) = w)
    {outer : List Source.Frame} (hframes : st.frames = frame :: outer) (name : String) :
    X.Agrees (scopes.declare name (.cell c.register) c.ty)
      { st with frames := frame.set name value :: outer } fs := by
  refine { h with vars := ?_ }
  have hvars := h.vars
  rw [hframes] at hvars
  rcases scopes with ⟨_ | ⟨scope, scopes⟩⟩
  · simp at hvars
  · obtain ⟨hhead, htail⟩ := List.forall₂_cons.mp hvars
    refine .cons (fun other => ?_) htail
    rw [Scope.getElem?_insert, Source.Frame.set]
    by_cases hother : name = other
    · rw [if_pos hother, if_pos hother.symm]
      exact .present n c value hc hscalar hvalue
    · rw [if_neg hother, if_neg (Ne.symm hother)]
      exact hhead other

/-! ## Names -/

/-- The address and the type of the variable that a name stands for. -/
inductive Names (X : Setting World) (scopes : ScopeStack) (name : String) : Operand → Ty → Prop
  | var (r : RegisterId) (ty : Ty) (h : scopes.resolve? name = some (.cell r, ty)) :
    Names X scopes name (.register r) ty
  | global (g : Global) (h : scopes.resolve? name = none)
    (hg : X.program.global? name = some g) : Names X scopes name (.global name) g.ty

/-- What the names of the source stand for: their types are those of the program. -/
def Knows (X : Setting World) (known : Typing) (scopes : ScopeStack) : Prop :=
  ∀ name ty, known name = some ty → ty.isScalar = true →
    ∃ address, X.Names scopes name address (.ofSource ty)

def KnowsGlobals (X : Setting World) (globals : Typing) : Prop :=
  ∀ name, (X.program.global? name).map Global.ty = (globals name).map Ty.ofSource

/-- The function is complete, and its surroundings are those its source was checked
against. -/
structure Sound (X : Setting World) (symbols : Symbols) (globals : Typing) :
    Prop where
  shelters : X.environment.Shelters symbols X.program X.function
  placed : X.function.CellsPlaced
  globals : X.KnowsGlobals globals

variable {globals : Typing} {name : String} {address : Operand} {ty : Ty} {w : Word}
  {st' : Source.State World}

theorem Sound.global (hX : X.Sound symbols globals) (hg : X.program.global? name = some g)
    (hscalar : g.ty.IsScalar) : ∃ ty, globals name = some ty ∧ ty.width = g.ty.width := by
  have hty := hX.globals name
  rw [hg] at hty
  obtain ⟨ty, hglobal, hty⟩ := Option.map_eq_some_iff.mp hty.symm
  rw [← hty] at hscalar
  exact ⟨ty, hglobal, by rw [← hty, Ty.width_ofSource hscalar.of_ofSource]⟩

variable (h : X.Agrees scopes st fs) (hX : X.Sound symbols globals)
include h hX

theorem Agrees.read (hname : X.Names scopes name address ty) (hscalar : ty.IsScalar)
    (hread : Source.read X.environment globals name st = .done w st') :
    st' = st ∧ ∃ a, fs.value? X.environment address = some a ∧
      fs.memory.read ty.width a = w ∧ ty.Admits w := by
  have hentry := varAgrees_lookup h.vars name
  simp only [Source.read] at hread
  cases hname with
  | var r ty hname =>
    rw [show ScopeStack.resolve? ⟨scopes.scopes⟩ name = _ from hname] at hentry
    obtain ⟨n, c, v, hc, hr, rfl, -, hlookup, hvalue⟩ := hentry.of_some
    obtain rfl := Storage.cell.inj hr
    rw [hlookup] at hread
    cases v with
    | none => simp at hread
    | some v =>
      simp only [Source.Result.done.injEq] at hread
      obtain ⟨rfl, rfl⟩ := hread
      obtain ⟨hadmits, hvalue⟩ := hvalue v rfl
      exact ⟨rfl, X.environment.cell n, h.cells n c hc, hvalue, hadmits⟩
  | global g hnone hg =>
    rw [show ScopeStack.resolve? ⟨scopes.scopes⟩ name = _ from hnone] at hentry
    obtain ⟨ty, hglobal, hwidth⟩ := hX.global hg hscalar
    simp only [hentry.of_none, hglobal, Source.Result.done.injEq] at hread
    obtain ⟨rfl, rfl⟩ := hread
    have hmemory : fs.memory.read g.ty.width (X.environment.global name) =
        st.memory.read g.ty.width (X.environment.global name) :=
      Memory.read_congr fun b hb => h.memory b (hX.shelters.globals name g hg b hb)
    rw [hwidth]
    exact ⟨rfl, X.environment.global name, rfl, hmemory, h.truth name g hg⟩

theorem Agrees.write (hown : scopes.Placed X.function)
    (hresult : ∀ r, X.result = some r → ∀ scope ∈ scopes.scopes, ¬ scope.Uses r)
    (hname : X.Names scopes name address ty) (hscalar : ty.IsScalar) (hw : ty.Admits w)
    (hwrite : Source.write X.environment globals name w st = .done u st') :
    ∃ a, fs.value? X.environment address = some a ∧
      X.Agrees scopes st' (fs.store ty.width a w) := by
  have hentry := varAgrees_lookup h.vars name
  simp only [Source.write] at hwrite
  cases hname with
  | var r ty hname =>
    rw [show ScopeStack.resolve? ⟨scopes.scopes⟩ name = _ from hname] at hentry
    obtain ⟨n, c, v, hc, hr, rfl, -, hlookup, -⟩ := hentry.of_some
    obtain rfl := Storage.cell.inj hr
    simp only [hlookup, Source.Result.done.injEq] at hwrite
    obtain ⟨-, rfl⟩ := hwrite
    refine ⟨X.environment.cell n, h.cells n c hc, ?_⟩
    refine h.store_var hX.shelters hown hc (fun hr => ?_) hname hw
    obtain ⟨scope, hscope, hfound⟩ := List.exists_of_findSome?_eq_some hname
    exact hresult c.register hr scope hscope ⟨name, c.ty, hfound⟩
  | global g hnone hg =>
    rw [show ScopeStack.resolve? ⟨scopes.scopes⟩ name = _ from hnone] at hentry
    obtain ⟨ty, hglobal, hwidth⟩ := hX.global hg hscalar
    simp only [hentry.of_none, hglobal, Source.Result.done.injEq] at hwrite
    obtain ⟨-, rfl⟩ := hwrite
    rw [hwidth]
    exact ⟨X.environment.global name, rfl, h.store_global hX.shelters hg hscalar hw⟩

end Setting

end

end MxStar.Flow
