import MxStar.Proofs.Flow.Building
import MxStar.Proofs.Source.Typing

/-!
# Functions that are typed right

What it means that the code of a function is typed right.  Some of it holds of every
source: what an instruction mentions exists.  The rest needs a well-typed source, which
is the proposition `typed` of a `Checking`.

While a body is built its registers get their types one by one, and no type ever
changes.  So what is right stays right when more registers are added
(`Function.Extends`).
-/

namespace MxStar.Flow

/-! ## Types -/

namespace Ty

/-- The types of what stands in memory.  Pointers have at least one level, over a base
that is no pointer. -/
def IsKept : Ty → Prop
  | .cond => False
  | .pointer base depth => 0 < depth ∧ base ≠ .cond ∧ ∀ inner n, base ≠ .pointer inner n
  | _ => True

/-- The types of what stands in registers. -/
def IsFlat (ty : Ty) : Prop :=
  ty = .cond ∨ ty.IsKept

namespace IsKept

variable {ty inner : Ty}

theorem flat (h : ty.IsKept) : ty.IsFlat := .inr h

theorem ne_cond (h : ty.IsKept) : ty ≠ .cond := by
  rintro rfl
  exact h

theorem pointerTo (h : ty.IsKept) : ty.pointerTo.IsKept := by
  cases ty with
  | pointer base depth => exact ⟨Nat.succ_pos _, h.2⟩
  | cond => exact h.elim
  | _ => exact ⟨Nat.one_pos, by simp, by simp⟩

theorem pointee (h : ty.IsKept) (hinner : ty.pointee? = some inner) : inner.IsKept := by
  unfold pointee? at hinner
  split at hinner
  · cases hinner
  · rename_i base
    obtain rfl := Option.some.inj hinner
    cases base with
    | pointer below n => exact absurd rfl (h.2.2 below n)
    | cond => exact absurd rfl h.2.1
    | _ => trivial
  · obtain rfl := Option.some.inj hinner
    exact ⟨Nat.succ_pos _, h.2⟩
  · cases hinner

theorem isHollow (h : ty.IsKept) : ty.isHollow = false := by
  unfold Ty.isHollow
  split
  · exact absurd h.1 (Nat.lt_irrefl 0)
  · rfl

theorem isWritable (h : ty.IsKept) : ty.isWritable = true := by
  cases ty with
  | pointer base depth =>
    cases base with
    | void => exact decide_eq_true h.1
    | pointer inner n => exact absurd rfl (h.2.2 inner n)
    | _ => rfl
  | _ => rfl

theorem pointee_pointerTo (h : ty.IsKept) : ty.pointerTo.pointee? = some ty :=
  pointee?_pointerTo h.isHollow

theorem pointers (h : ty.IsKept) (n : Nat) : (pointers n ty).IsKept := by
  induction n generalizing ty with
  | zero => exact h
  | succ n ih => exact ih h.pointerTo

end IsKept

theorem IsFlat.isHollow {ty : Ty} (h : ty.IsFlat) : ty.isHollow = false := by
  rcases h with rfl | h
  · rfl
  · exact h.isHollow

theorem IsFlat.isWritable {ty : Ty} (h : ty.IsFlat) : ty.isWritable = true := by
  rcases h with rfl | h
  · rfl
  · exact h.isWritable

theorem isKept_anyPointer : anyPointer.IsKept := ⟨Nat.one_pos, by simp, by simp⟩

theorem isKept_ofSource (ty : Source.Ty) : (ofSource ty).IsKept := by
  refine IsKept.pointers ?_ _
  cases ty.base with
  | null => exact isKept_anyPointer
  | _ => trivial

/-- How a value is held, whatever it means. -/
inductive Shape
  | nothing
  /-- A truth value, in either form -/
  | truth
  | word
deriving DecidableEq, Repr

def shape : Ty → Shape
  | .void => .nothing
  | .bool | .cond => .truth
  | .int | .string | .object _ | .pointer _ _ => .word

theorem size_eq_of_shape_eq {ty other : Ty} (h : ty.shape = other.shape) :
    ty.size = other.size := by
  cases ty <;> cases other <;> first | rfl | cases h

theorem shape_pointerTo (ty : Ty) : ty.pointerTo.shape = .word := by
  cases ty <;> rfl

theorem shape_pointers (n : Nat) {ty : Ty} (h : ty.shape = .word) :
    (pointers n ty).shape = .word := by
  induction n generalizing ty with
  | zero => exact h
  | succ n ih => exact ih (shape_pointerTo ty)

theorem ofSource_ne_void {ty : Source.Ty} (h : ty ≠ .void) : ofSource ty ≠ .void := by
  obtain ⟨base, dimensions⟩ := ty
  cases dimensions with
  | zero => cases base <;> simp_all [ofSource, ofBase, pointers, anyPointer, Source.Ty.void]
  | succ n =>
    intro hvoid
    cases (congrArg shape hvoid).symm.trans (shape_pointers n (shape_pointerTo _))

theorem shape_ofSource_of_isReference {ty : Source.Ty} (h : ty.isReference = true) :
    (ofSource ty).shape = .word := by
  obtain ⟨base, dimensions⟩ := ty
  cases dimensions with
  | zero => cases base <;> first | rfl | cases h
  | succ n => exact shape_pointers n (shape_pointerTo _)

theorem shape_ofSource_of_accepts (h : place.accepts value = true) :
    (ofSource value).shape = (ofSource place).shape := by
  simp only [Source.Ty.accepts, Bool.or_eq_true, decide_eq_true_eq, Bool.and_eq_true] at h
  rcases h with rfl | ⟨rfl, hplace⟩
  · rfl
  · exact (shape_ofSource_of_isReference hplace).symm

end Ty

theorem Constant.isFlat_ty (c : Constant) : c.ty.IsFlat := by
  cases c with
  | null => exact Ty.isKept_anyPointer.flat
  | cond b => exact .inl rfl
  | _ => exact .inr trivial

/-! ## Instructions that are typed right -/

theorem Function.registerType_eq_ok {f : Function} {r : RegisterId} {ty : Ty} :
    f.registerType r = .ok ty ↔ ∃ info, f.registers.get? r = some info ∧ info.ty = ty := by
  constructor
  · intro h
    obtain ⟨info, hfind, hty⟩ := Except.bind_eq_ok.mp h
    exact ⟨info, Table.find_eq_ok.mp hfind, Except.ok.inj hty⟩
  · rintro ⟨info, hinfo, rfl⟩
    exact Except.bind_eq_ok.mpr ⟨info, Table.find_eq_ok.mpr hinfo, rfl⟩

/-- An address leads to a value of the given type: a register by its own type, a name by
the global it stands for. -/
def Function.PointsTo (globals : List Global) (f : Function) (address : Operand) (ty : Ty) : Prop :=
  match address with
  | .register r => ∃ pointer, f.registerType r = .ok pointer ∧ pointer.pointee? = some ty
  | .global name => ∃ v ∈ globals.find? fun g => g.name == name, v.ty = ty
  | _ => False

/-- Memory is accessed under the type its address has, truth values are handed on in
storage form, and they change their form only where an instruction says so. -/
def Instr.IsExplicit (globals : List Global) (f : Function) : Instr → Prop
  | .load destination address =>
    ∃ ty, f.PointsTo globals address ty ∧ f.registerType destination = .ok ty
  | .store value address =>
    ∃ stored ty, f.operandType value = .ok stored ∧ stored ≠ .cond ∧
      f.PointsTo globals address ty ∧ stored.size = ty.size
  | .call _ _ arguments => ∀ o ∈ arguments, ∃ ty, f.operandType o = .ok ty ∧ ty ≠ .cond
  | .zeroExtend destination value =>
    f.operandType value = .ok .cond ∧ f.registerType destination = .ok .bool
  | .truncate destination value =>
    f.operandType value = .ok .bool ∧ f.registerType destination = .ok .cond
  | _ => True

/-- Branches take truth values in condition form, returns never do. -/
def Terminator.IsExplicit (f : Function) : Terminator → Prop
  | .branch condition _ _ => f.operandType condition = .ok .cond
  | .ret (some value) => ∃ ty, f.operandType value = .ok ty ∧ ty ≠ .cond
  | _ => True

/-- The member of an instruction exists, and the type it names can be written. -/
def Instr.Refers (structs : List Struct) : Instr → Prop
  | .memberAddress _ _ name field =>
    ∃ struct ∈ structs.find? fun s => s.name == name, field < struct.members.length
  | .alloca _ ty | .elementAddress _ _ ty _ => ty.IsKept
  | _ => True

/-- Whether or not the source is well-typed, an access to memory goes to what stands in
memory, and a load gives a value of that type. -/
def Instr.Reaches (globals : List Global) (f : Function) : Instr → Prop
  | .load destination address =>
    ∃ ty : Ty, ty.IsKept ∧ f.PointsTo globals address ty ∧ f.registerType destination = .ok ty
  | .store _ address => ∃ ty : Ty, ty.IsKept ∧ f.PointsTo globals address ty
  | _ => True

structure Checking where
  symbols : Source.Symbols
  globals : List Global
  /-- The function once it is finished -/
  final : Function
  /-- That the source is well-typed -/
  typed : Prop
  /-- That no variable of the source is void -/
  sized : Prop

namespace Checking

def Has (C : Checking) (o : Operand) (ty : Ty) : Prop :=
  C.final.operandType o = .ok ty

/-- An instruction mentions what exists, and if the source is well-typed it is explicit. -/
structure Accepts (C : Checking) (i : Instr) : Prop where
  operands : ∀ o ∈ i.operands, ∃ ty, C.Has o ty
  destination : ∀ d ∈ i.destination?, ∃ ty, C.final.registerType d = .ok ty
  refers : i.Refers (structsOf C.symbols)
  reaches : i.Reaches C.globals C.final
  explicit : C.typed → i.IsExplicit C.globals C.final

/-- The same for the end of a block. -/
structure Ends (C : Checking) (t : Terminator) : Prop where
  operands : ∀ o ∈ t.operands, ∃ ty, C.Has o ty
  explicit : C.typed → t.IsExplicit C.final

/-- A cell is reached under its own type. -/
structure Keeps (C : Checking) (c : Cell) : Prop where
  kept : c.ty.IsKept
  register : C.final.registerType c.register = .ok c.ty.pointerTo
  sized : C.sized → c.ty ≠ .void

structure Holds (C : Checking) (f : Function) : Prop where
  cells : ∀ c ∈ f.cells, C.Keeps c
  flat : ∀ r ty, f.registerType r = .ok ty → ty.IsFlat
  instrs : ∀ id b, f.blocks.get? id = some b → ∀ i ∈ b.instrs, C.Accepts i
  terminators : ∀ id b, f.blocks.get? id = some b → ∀ t ∈ b.terminator, C.Ends t

end Checking

/-- One function has the registers of another and maybe more. -/
def Function.Extends (f g : Function) : Prop :=
  ∀ r info, g.registers.get? r = some info → f.registers.get? r = some info

theorem Function.Extends.trans {f g h : Function} (hfg : f.Extends g) (hgh : g.Extends h) :
    f.Extends h :=
  fun r info hr => hfg r info (hgh r info hr)

theorem Function.Extends.registerType {f g : Function} (h : f.Extends g) {r : RegisterId} {ty : Ty}
    (hr : g.registerType r = .ok ty) : f.registerType r = .ok ty := by
  obtain ⟨info, hinfo, hty⟩ := registerType_eq_ok.mp hr
  exact registerType_eq_ok.mpr ⟨info, h r info hinfo, hty⟩

theorem Checking.Holds.isFlat {C : Checking} {f : Function} (h : C.Holds f) {o : Operand} {ty : Ty}
    (ho : f.operandType o = .ok ty) : ty.IsFlat := by
  cases o with
  | register r => exact h.flat r ty ho
  | constant c =>
    cases ho
    exact c.isFlat_ty
  | string id =>
    cases ho
    exact .inr trivial
  | global name =>
    cases ho
    exact Ty.isKept_anyPointer.flat

theorem Function.Extends.refl (f : Function) : f.Extends f := fun _ _ h => h

section

variable {f f' : Function} {info : RegisterInfo} (h : f'.registers = f.registers.push info)
include h

theorem Function.extends_push : f'.Extends f := by
  intro r info' hr
  rw [h]
  exact Table.get?_push_of_get? hr info

theorem Function.registerType_next : f'.registerType f.registers.next = .ok info.ty := by
  refine registerType_eq_ok.mpr ⟨info, ?_, rfl⟩
  rw [h, Table.get?_push, if_pos rfl]

end

namespace Checking

variable {C : Checking} {f f' : Function}

theorem ends_jump (b : BlockId) : C.Ends (.jump b) :=
  ⟨by simp [Terminator.operands], fun _ => trivial⟩

namespace Holds

theorem modify (h : C.Holds f) (c : BlockId) (hinstrs : ∀ i ∈ b.instrs, C.Accepts i)
    (hterm : ∀ t ∈ b.terminator, C.Ends t) :
    C.Holds { f with blocks := f.blocks.modify c fun _ => b } := by
  have hcases : ∀ id d, (f.blocks.modify c fun _ => b).get? id = some d →
      d = b ∨ f.blocks.get? id = some d := by
    intro id d hd
    rw [Table.get?_modify] at hd
    split at hd
    · obtain ⟨_, -, rfl⟩ := Option.map_eq_some_iff.mp hd
      exact .inl rfl
    · exact .inr hd
  refine ⟨h.cells, h.flat, fun id d hd => ?_, fun id d hd => ?_⟩
  · rcases hcases id d hd with rfl | hd
    · exact hinstrs
    · exact h.instrs id d hd
  · rcases hcases id d hd with rfl | hd
    · exact hterm
    · exact h.terminators id d hd

theorem pushBlock (h : C.Holds f) (label : String) (ht : ∀ u ∈ t, C.Ends u) :
    C.Holds { f with blocks := f.blocks.push { label, terminator := t } } := by
  refine ⟨h.cells, h.flat, fun id d hd => ?_, fun id d hd => ?_⟩
  · rw [Table.get?_push] at hd
    split at hd
    · cases hd
      simp
    · exact h.instrs id d hd
  · rw [Table.get?_push] at hd
    split at hd
    · cases hd
      exact ht
    · exact h.terminators id d hd

theorem pushRegister (h : C.Holds f) {info : RegisterInfo}
    (hregs : f'.registers = f.registers.push info) (hblocks : f'.blocks = f.blocks)
    (hcells : ∀ c ∈ f'.cells, c ∈ f.cells ∨ C.Keeps c) (hflat : info.ty.IsFlat) : C.Holds f' := by
  refine ⟨fun c hc => (hcells c hc).elim (h.cells c) id, fun r ty hr => ?_, hblocks ▸ h.instrs,
    hblocks ▸ h.terminators⟩
  obtain ⟨info', hinfo, rfl⟩ := Function.registerType_eq_ok.mp hr
  rw [hregs, Table.get?_push] at hinfo
  split at hinfo
  · cases hinfo
    exact hflat
  · exact h.flat r _ (Function.registerType_eq_ok.mpr ⟨info', hinfo, rfl⟩)

end Holds

end Checking

end MxStar.Flow
