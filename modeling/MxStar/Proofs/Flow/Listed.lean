import MxStar.Flow.Listing
import MxStar.Proofs.Flow.Explicit
import MxStar.Proofs.Text.Lines

/-!
# What can be listed

A listing looks up registers and labels and writes types.  Where all of that exists, every
instruction and every terminator has a text, and in a function that is typed right it does.
The text is a single line as long as the names in it are.
-/

namespace MxStar.Flow

open Text (Style IsLine isLine_append isLine_toString isLine_toString_nat)

/-! ## Names -/

/-- No class that the type names breaks a line. -/
def Ty.OneLine : Ty → Prop
  | .object name => IsLine name
  | .pointer base _ => base.OneLine
  | _ => True

def Operand.OneLine : Operand → Prop
  | .global name => IsLine name
  | _ => True

def Instr.types : Instr → List Ty
  | .alloca _ ty | .elementAddress _ _ ty _ => [ty]
  | _ => []

def Instr.names : Instr → List String
  | .memberAddress _ _ struct _ => [struct]
  | .call _ callee _ => [callee]
  | _ => []

/-- No name of the instruction breaks a line. -/
structure Instr.OneLine (i : Instr) : Prop where
  operands : ∀ o ∈ i.operands, o.OneLine
  types : ∀ ty ∈ i.types, ty.OneLine
  names : ∀ name ∈ i.names, IsLine name

structure Function.OneLine (f : Function) : Prop where
  registers : ∀ r info, f.registers.get? r = some info →
    (∀ name ∈ info.name, IsLine name) ∧ info.ty.OneLine
  labels : ∀ id b, f.blocks.get? id = some b → IsLine b.label

instance Ty.decidableOneLine : DecidablePred Ty.OneLine
  | .object name => inferInstanceAs (Decidable (IsLine name))
  | .pointer base _ =>
    have := Ty.decidableOneLine base
    inferInstanceAs (Decidable base.OneLine)
  | .int | .bool | .cond | .string | .void => isTrue trivial

instance : DecidablePred Operand.OneLine
  | .global name => inferInstanceAs (Decidable (IsLine name))
  | .register _ | .constant _ | .string _ => isTrue trivial

instance (i : Instr) : Decidable i.OneLine :=
  decidable_of_iff ((∀ o ∈ i.operands, o.OneLine) ∧ (∀ ty ∈ i.types, ty.OneLine) ∧
      ∀ name ∈ i.names, IsLine name)
    ⟨fun h => ⟨h.1, h.2.1, h.2.2⟩, fun h => ⟨h.operands, h.types, h.names⟩⟩

instance (f : Function) : Decidable f.OneLine :=
  decidable_of_iff ((∀ r info, f.registers.get? r = some info →
      (∀ name ∈ info.name, IsLine name) ∧ info.ty.OneLine) ∧
      ∀ id b, f.blocks.get? id = some b → IsLine b.label)
    ⟨fun h => ⟨h.1, h.2⟩, fun h => ⟨h.registers, h.labels⟩⟩

/-! ## Listings -/

def Lists (p : Prop) (listing : Except Error String) : Prop :=
  ∃ text, listing = .ok text ∧ (p → IsLine text)

theorem Lists.pure {p : Prop} (h : p → IsLine text) : Lists p (.ok text) :=
  ⟨text, rfl, h⟩

theorem Lists.bind {p : Prop} {k : String → Except Error String} (hx : Lists p x)
    (hk : ∀ text, (p → IsLine text) → Lists p (k text)) : Lists p (x >>= k) := by
  obtain ⟨text, rfl, htext⟩ := hx
  exact hk text htext

variable {p : Prop} {f : Function} {style : Style}

variable {ty : Ty} {o : Operand}

theorem Ty.OneLine.display (h : ty.OneLine) : IsLine ty.display := by
  fun_induction Ty.display ty with
  | case6 name => exact isLine_append.mpr ⟨isLine_append.mpr ⟨by decide, h⟩, by decide⟩
  | case7 depth => exact isLine_append.mpr ⟨by decide, .pushn (by decide) (by decide) _⟩
  | case8 base depth hvoid ih => exact isLine_append.mpr ⟨ih h, .pushn (by decide) (by decide) _⟩
  | _ => decide

theorem lists_type (h : ty.isWritable = true) (hp : p → ty.OneLine) : Lists p ty.listing :=
  ⟨ty.display, if_pos h, fun h => (hp h).display⟩

theorem Operand.isLine_listing (h : o.OneLine) : IsLine (o.listing style) := by
  cases o with
  | register r => exact .paint (isLine_append.mpr ⟨by decide, isLine_toString_nat _⟩) _ _
  | constant c =>
    refine .paint ?_ _ _
    cases c with
    | int value => exact Text.isLine_toString_int _
    | bool value => cases value <;> decide
    | cond value => cases value <;> decide
    | null => decide
  | global name => exact .paint (isLine_append.mpr ⟨by decide, h⟩) _ _
  | string id => exact .paint (isLine_append.mpr ⟨by decide, isLine_toString_nat _⟩) _ _

section

variable (hwrite : ∀ r ty, f.registerType r = .ok ty → ty.isWritable = true)
  (hnames : p → f.OneLine)

include hnames in
theorem lists_register (h : ∃ ty, f.registerType r = .ok ty) :
    Lists p (f.registerListing style r) := by
  obtain ⟨ty, hty⟩ := h
  obtain ⟨info, hinfo, -⟩ := Function.registerType_eq_ok.mp hty
  refine ⟨_, Except.bind_eq_ok.mpr ⟨info, Table.find_eq_ok.mpr hinfo, rfl⟩, fun hp => .paint ?_ _ _⟩
  have hline := ((hnames hp).registers r info hinfo).1
  split
  · rename_i name hname
    simp only [isLine_append, isLine_toString, isLine_toString_nat, hline name hname]
    decide
  · exact isLine_append.mpr ⟨by decide, isLine_toString_nat _⟩

include hnames in
theorem lists_define (h : ∃ ty, f.registerType r = .ok ty) : Lists p (f.defineListing style r) := by
  refine .bind (lists_register hnames h) fun text htext => .pure fun hp => ?_
  simp only [isLine_append, htext hp, Text.IsLine.paint (show IsLine "=" by decide)]
  decide

include hnames in
theorem lists_operand (h : ∃ ty, f.operandType o = .ok ty) (hp : p → o.OneLine) :
    Lists p (f.operandListing style o) := by
  cases o with
  | register r => exact lists_register hnames h
  | _ => exact .pure fun h => Operand.isLine_listing (hp h)

include hwrite hnames in
theorem lists_operandType (h : f.operandType o = .ok ty) : Lists p ty.listing := by
  cases o with
  | register r =>
    obtain ⟨info, hinfo, rfl⟩ := Function.registerType_eq_ok.mp h
    exact lists_type (hwrite r _ h) fun hp => ((hnames hp).registers r info hinfo).2
  | constant c =>
    cases h
    refine lists_type ?_ fun _ => ?_ <;> cases c <;> trivial
  | _ =>
    cases h
    exact ⟨_, rfl, fun _ => by decide⟩

include hwrite hnames in
theorem lists_registerType (h : ∃ ty, f.registerType r = .ok ty) : Lists p (f.typeListing r) := by
  obtain ⟨ty, hty⟩ := h
  rw [Function.typeListing, hty]
  exact lists_operandType (o := .register r) hwrite hnames hty

include hwrite hnames in
theorem lists_typed (h : ∃ ty, f.operandType o = .ok ty) (hp : p → o.OneLine) :
    Lists p (f.typedListing style o) := by
  obtain ⟨ty, hty⟩ := h
  rw [Function.typedListing, hty]
  refine .bind (lists_operandType hwrite hnames hty) fun type htype => ?_
  refine .bind (lists_operand hnames ⟨ty, hty⟩ hp) fun operand hoperand => .pure fun h => ?_
  simp only [isLine_append, isLine_toString, htype h, hoperand h]
  decide

include hwrite hnames in
theorem lists_cast (hopcode : IsLine opcode) (hd : ∃ ty, f.registerType d = .ok ty)
    (ho : ∃ ty, f.operandType o = .ok ty) (hp : p → o.OneLine) :
    Lists p (f.castListing style opcode d o) := by
  refine .bind (lists_define hnames hd) fun define hdefine => ?_
  refine .bind (lists_typed hwrite hnames ho hp) fun value hvalue => ?_
  refine .bind (lists_registerType hwrite hnames hd) fun type htype => .pure fun h => ?_
  simp only [isLine_append, isLine_toString, hdefine h, hopcode.paint, hvalue h, htype h]
  decide

theorem lists_all {α : Type} {listing : α → Except Error String} {list : List α}
    (h : ∀ a ∈ list, Lists p (listing a)) :
    ∃ texts, list.mapM listing = .ok texts ∧ (p → ∀ text ∈ texts, IsLine text) := by
  obtain ⟨texts, htexts⟩ := Except.exists_mapM fun a ha => (h a ha).imp fun _ => And.left
  refine ⟨texts, htexts, fun hp text htext => ?_⟩
  obtain ⟨a, ha, hlisting⟩ := (List.forall₂_of_mapM_eq_ok htexts).exists_of_mem_right htext
  obtain ⟨text', htext', hline⟩ := h a ha
  rw [hlisting] at htext'
  exact Except.ok.inj htext' ▸ hline hp

include hwrite hnames in
theorem lists_instr (hoperands : ∀ o ∈ i.operands, ∃ ty, f.operandType o = .ok ty)
    (hdest : ∀ d ∈ i.destination?, ∃ ty, f.registerType d = .ok ty)
    (htypes : ∀ ty ∈ i.types, ty.isWritable = true) (hp : p → i.OneLine) :
    Lists p (f.instrListing style i) := by
  have hdefine : ∀ d ∈ i.destination?, Lists p (f.defineListing style d) :=
    fun d hd => lists_define hnames (hdest d hd)
  have hreg : ∀ d ∈ i.destination?, Lists p (f.typeListing d) :=
    fun d hd => lists_registerType hwrite hnames (hdest d hd)
  have htyped : ∀ o ∈ i.operands, Lists p (f.typedListing style o) := fun o ho =>
    lists_typed hwrite hnames (hoperands o ho) fun h => (hp h).operands o ho
  have hoperand : ∀ o ∈ i.operands, Lists p (f.operandListing style o) := fun o ho =>
    lists_operand hnames (hoperands o ho) fun h => (hp h).operands o ho
  have htype : ∀ ty ∈ i.types, Lists p ty.listing := fun ty hty =>
    lists_type (htypes ty hty) fun h => (hp h).types ty hty
  cases i with
  | alloca d ty =>
    have hopcode : IsLine "alloca" := by decide
    refine .bind (hdefine d rfl) fun define hdefine => ?_
    refine .bind (htype ty (.head _)) fun type htype => .pure fun h => ?_
    simp only [isLine_append, isLine_toString, hdefine h, hopcode.paint, htype h]
    decide
  | load d address =>
    have hopcode : IsLine "load" := by decide
    refine .bind (hdefine d rfl) fun define hdefine => ?_
    refine .bind (hreg d rfl) fun type htype => ?_
    refine .bind (htyped address (.head _)) fun source hsource => .pure fun h => ?_
    simp only [isLine_append, isLine_toString, hdefine h, hopcode.paint, htype h, hsource h]
    decide
  | store value address =>
    have hopcode : IsLine "store" := by decide
    refine .bind (htyped value (.head _)) fun source hsource => ?_
    refine .bind (htyped address (by simp [Instr.operands])) fun place hplace => .pure fun h => ?_
    simp only [isLine_append, isLine_toString, hopcode.paint, hsource h, hplace h]
    decide
  | arith op d lhs rhs =>
    have hopcode : IsLine op.display := by cases op <;> decide
    refine .bind (hdefine d rfl) fun define hdefine => ?_
    refine .bind (htyped lhs (.head _)) fun left hleft => ?_
    refine .bind (hoperand rhs (by simp [Instr.operands])) fun right hright => .pure fun h => ?_
    simp only [isLine_append, isLine_toString, hdefine h, hopcode.paint, hleft h, hright h]
    decide
  | compare condition d lhs rhs =>
    have hopcode : IsLine "icmp" := by decide
    have hcond : IsLine condition.display := by cases condition <;> decide
    refine .bind (hdefine d rfl) fun define hdefine => ?_
    refine .bind (htyped lhs (.head _)) fun left hleft => ?_
    refine .bind (hoperand rhs (by simp [Instr.operands])) fun right hright => .pure fun h => ?_
    simp only [isLine_append, isLine_toString, hdefine h, hopcode.paint, hcond, hleft h, hright h]
    decide
  | zeroExtend d value | truncate d value | bitCast d value =>
    exact lists_cast hwrite hnames (by decide) (hdest d rfl)
      (hoperands value (.head _)) fun h => (hp h).operands value (.head _)
  | elementAddress d base element index =>
    have hopcode : IsLine "getelementptr" := by decide
    refine .bind (hdefine d rfl) fun define hdefine => ?_
    refine .bind (htype element (.head _)) fun type htype => ?_
    refine .bind (htyped base (.head _)) fun source hsource => ?_
    refine .bind (htyped index (by simp [Instr.operands])) fun place hplace => .pure fun h => ?_
    simp only [isLine_append, isLine_toString, hdefine h, hopcode.paint, htype h,
      hsource h, hplace h]
    decide
  | memberAddress d base struct field =>
    have hopcode : IsLine "getelementptr" := by decide
    refine .bind (hdefine d rfl) fun define hdefine => ?_
    refine .bind (htyped base (.head _)) fun source hsource => .pure fun h => ?_
    simp only [isLine_append, isLine_toString, hdefine h, hopcode.paint, hsource h,
      (hp h).names struct (.head _), (isLine_toString_nat field).paint]
    decide
  | call d callee arguments =>
    have hopcode : IsLine "call" := by decide
    obtain ⟨texts, htexts, hlines⟩ := lists_all htyped
    have hlist : p → IsLine (", ".intercalate texts) := fun h =>
      Text.isLine_intercalate (by decide) (hlines h)
    have hcallee : p → IsLine s!"@{callee}" := fun h =>
      isLine_append.mpr ⟨by decide, (hp h).names callee (.head _)⟩
    cases d with
    | none =>
      refine ⟨_, Except.bind_eq_ok.mpr ⟨("", "void"), rfl,
        Except.bind_eq_ok.mpr ⟨texts, htexts, rfl⟩⟩, fun h => ?_⟩
      simp only [isLine_append, isLine_toString, hopcode.paint, (hcallee h).paint, hlist h]
      decide
    | some d =>
      refine .bind (hdefine d rfl) fun define hdefine => ?_
      refine .bind (hreg d rfl) fun type htype => ?_
      refine ⟨_, Except.bind_eq_ok.mpr ⟨(define ++ " ", type), rfl,
        Except.bind_eq_ok.mpr ⟨texts, htexts, rfl⟩⟩, fun h => ?_⟩
      simp only [isLine_append, isLine_toString, hdefine h, hopcode.paint, htype h,
        (hcallee h).paint, hlist h]
      decide

theorem lists_terminator (hwrite : ∀ r ty, f.registerType r = .ok ty → ty.isWritable = true)
    (hnames : p → f.OneLine) (hoperands : ∀ o ∈ t.operands, ∃ ty, f.operandType o = .ok ty)
    (hblocks : ∀ c ∈ t.successors, ∃ b, f.blocks.get? c = some b)
    (hp : p → ∀ o ∈ t.operands, o.OneLine) : Lists p (f.terminatorListing style t) := by
  have hopcode : IsLine "br" ∧ IsLine "ret" := by decide
  have htyped : ∀ o ∈ t.operands, Lists p (f.typedListing style o) := fun o ho =>
    lists_typed hwrite hnames (hoperands o ho) fun h => hp h o ho
  have hlabel : ∀ c ∈ t.successors, Lists p (f.labelListing style c) := by
    intro c hc
    obtain ⟨b, hb⟩ := hblocks c hc
    refine ⟨_, Except.bind_eq_ok.mpr ⟨b, Table.find_eq_ok.mpr hb, rfl⟩, fun h => .paint ?_ _ _⟩
    exact isLine_append.mpr ⟨by decide, (hnames h).labels c b hb⟩
  cases t with
  | jump destination =>
    refine .bind (hlabel destination (by simp [Terminator.successors])) fun label hlabel =>
      .pure fun h => ?_
    simp only [isLine_append, isLine_toString, hopcode.1.paint, hlabel h]
    decide
  | branch condition positive negative =>
    have hsuccs : positive ∈ (Terminator.branch condition positive negative).successors ∧
        negative ∈ (Terminator.branch condition positive negative).successors := by
      simp only [Terminator.successors]
      split <;> simp_all
    refine .bind (htyped condition (.head _)) fun test htest => ?_
    refine .bind (hlabel positive hsuccs.1) fun yes hyes => ?_
    refine .bind (hlabel negative hsuccs.2) fun no hno => .pure fun h => ?_
    simp only [isLine_append, isLine_toString, hopcode.1.paint, htest h, hyes h, hno h]
    decide
  | ret value =>
    cases value with
    | none => exact .pure fun h => isLine_append.mpr ⟨hopcode.2.paint _ _, by decide⟩
    | some value =>
      refine .bind (htyped value (.head _)) fun result hresult => .pure fun h => ?_
      simp only [isLine_append, isLine_toString, hopcode.2.paint, hresult h]
      decide

end

/-! ## Typed functions -/

namespace Checking.Holds

variable {symbols : Source.Symbols} {globals : List Global} {typed sized : Prop}
  (h : Holds ⟨symbols, globals, f, typed, sized⟩ f)
include h

theorem exists_instrListing (hi : Accepts ⟨symbols, globals, f, typed, sized⟩ i) :
    ∃ text, f.instrListing style i = .ok text := by
  have htypes : ∀ ty ∈ i.types, ty.isWritable = true := by
    intro ty hty
    have hrefers := hi.refers
    cases i with
    | alloca d ty' | elementAddress d base ty' index =>
      obtain rfl := List.mem_singleton.mp hty
      exact (show Ty.IsKept _ from hrefers).flat.isWritable
    | _ => simp [Instr.types] at hty
  obtain ⟨text, htext, -⟩ := lists_instr (p := False) (fun r ty hty => (h.flat r ty hty).isWritable)
    False.elim hi.operands hi.destination htypes False.elim
  exact ⟨text, htext⟩

theorem exists_terminatorListing (ht : Ends ⟨symbols, globals, f, typed, sized⟩ t)
    (hblocks : ∀ c ∈ t.successors, ∃ b, f.blocks.get? c = some b) :
    ∃ text, f.terminatorListing style t = .ok text := by
  obtain ⟨text, htext, -⟩ := lists_terminator (p := False)
    (fun r ty hty => (h.flat r ty hty).isWritable) False.elim ht.operands hblocks False.elim
  exact ⟨text, htext⟩

end Checking.Holds

end MxStar.Flow
