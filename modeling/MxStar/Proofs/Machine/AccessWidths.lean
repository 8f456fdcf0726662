import MxStar.Proofs.Machine.FrameDivision
import MxStar.Proofs.Machine.LinkedUnit

/-!
# Memory is accessed in the size of what stands there

A cell gets an object of the frame in the size of its type, and a load or store that names it
is selected for the type behind the address.  Both types are the same in any source, typed
right or not (`Flow.Instr.Reaches`), and a spilled register lives in a word and is moved as
one.  So no access to the frame leaves its object, and none to a global its data.
-/

namespace MxStar.Machine

open MxStar.Flow (Operand RegisterId)

/-! ## Objects of the frame -/

theorem objects_frameOf (cells : List Flow.Cell) : (frameOf cells).objects.entries.toList =
      cells.map fun c => FrameObject.ofRequest (c.ty.size, c.ty.alignment) := by
  have hframe : frameOf cells =
      Frame.allocateAll {} (cells.map fun c => (c.ty.size, c.ty.alignment)) := by
    rw [frameOf, Frame.allocateAll, List.foldl_map]
  rw [hframe, Frame.objects_allocateAll, List.map_map]
  rfl

variable {ty : Flow.Ty} {width : Width}

theorem get?_objects_ofFlow (h : Function.ofFlow program source options = .ok f)
    (hc : source.cells[slot.val]? = some c) :
    f.frame.objects.get? slot = some (.ofRequest (c.ty.size, c.ty.alignment)) := by
  obtain ⟨blocks, -, h⟩ := Except.bind_eq_ok.mp h
  obtain ⟨entry, -, h⟩ := Except.bind_eq_ok.mp h
  obtain ⟨exit, -, h⟩ := Except.bind_eq_ok.mp h
  obtain ⟨⟨pieces, N⟩, -, rfl⟩ := Except.bind_pure_eq_ok.mp h
  have hobjects := congrArg (·[slot.val]?) (objects_frameOf source.cells.toList)
  simpa [Table.get?, hc] using hobjects

theorem Width.ofSize_eq_byte : ofSize size = .byte ↔ size = 1 := by
  unfold ofSize
  split <;> simp_all

theorem suits_ofSize (hvoid : ty ≠ .void) :
    (Width.ofSize ty.size = .byte ↔ (FrameObject.ofRequest (ty.size, ty.alignment)).size = 1) ∧
      (Width.ofSize ty.size = .word ↔
        (FrameObject.ofRequest (ty.size, ty.alignment)).size = wordSize) := by
  cases ty with
  | void => exact absurd rfl hvoid
  | _ => simp [FrameObject.ofRequest, Flow.Ty.size, Width.ofSize, wordSize]

section

variable {program : Flow.Program} {source : Flow.Function} {symbols : Source.Symbols}
  {typed sized : Prop}
  (hholds : Flow.Checking.Holds ⟨symbols, program.globals, source, typed, sized⟩ source)
include hholds

theorem suits_of_holds (hsized : sized) (hf : Function.ofFlow program source options = .ok f)
    {id : Flow.BlockId} (hb : source.blocks.get? id = some b) (hi : i ∈ b.instrs.toList) :
    Selector.Suits ⟨program, source, options⟩ (f.Suits True) i := by
  intro r slot ty hslot
  obtain ⟨c, hc, rfl⟩ := Selector.exists_cell_of_slot? hslot
  obtain ⟨hkept, hreg, hvoid⟩ := hholds.cells c (Array.mem_of_getElem? hc)
  have hsuits : f.Suits True slot (.ofSize c.ty.size) :=
    fun _ => ⟨_, get?_objects_ofFlow hf hc, suits_ofSize (hvoid hsized)⟩
  constructor
  · rintro d rfl hty
    obtain ⟨ty', -, ⟨pointer, hpointer, hpointee⟩, hty'⟩ :=
      (hholds.instrs id b hb _ (Array.mem_toList_iff.mp hi)).reaches
    obtain rfl := Except.ok.inj (hreg.symm.trans hpointer)
    obtain rfl := Option.mem_unique hkept.pointee_pointerTo hpointee
    obtain rfl := Except.ok.inj (hty.symm.trans hty')
    exact hsuits
  · rintro value rfl hty
    have hstored : Selector.storedType ⟨program, source, options⟩ value (.register c.register) =
        .ok c.ty := by
      simp [Selector.storedType, Selector.pointeeType?, hreg, hkept.pointerTo.isHollow,
        hkept.pointee_pointerTo, bind, Except.bind, pure, Except.pure]
    obtain rfl := Except.ok.inj (hstored.symm.trans hty)
    exact hsuits

end

/-! ## Globals -/

/-- How much memory an instruction moves, if it moves any. -/
def Instr.width? : Instr → Option Width
  | .load width _ _ _ | .store width _ _ _ => some width
  | _ => none

def DataValue.bytes : DataValue → Nat
  | .byte _ => 1
  | .word _ | .address _ => wordSize

section

variable {sel : Selector}

theorem gives_operand_still (o : Operand) :
    Gives (sel.operand o) fun r => ∀ j ∈ r.2, j.width? = none := by
  cases o with
  | register r =>
    simp only [Selector.operand]
    split <;> exact .bind .any fun rd _ => .pure (by simp [Instr.width?])
  | constant c =>
    simp only [Selector.operand]
    split
    · exact .pure (by simp)
    · exact .bind .any fun rd _ => .pure (by simp [Instr.width?])
  | global name | string id => exact .bind .any fun rd _ => .pure (by simp [Instr.width?])

theorem gives_address_still (name : String) :
    Gives (sel.address (.global name)) fun r => ∀ j ∈ r.2.2, j.width? = none :=
  .bind (gives_operand_still _) fun _ h => .pure h

def Selector.AccessType (sel : Selector) (name : String) (ty : Flow.Ty) (i : Flow.Instr) : Prop :=
  (∃ d, i = .load d (.global name) ∧ sel.source.registerType d = .ok ty) ∨
    ∃ value, i = .store value (.global name) ∧ sel.storedType value (.global name) = .ok ty

theorem width_of_selectInstr (hi : sel.AccessType name ty i)
    (h : sel.selectInstr i n = .ok (code, n')) (hj : j ∈ code) (hwidth : j.width? = some width) :
    width = .ofSize ty.size := by
  -- everything before the access itself moves no memory
  have hlast : ∀ {before : List Instr} {final : Instr}, final.width? = some (.ofSize ty.size) →
      (∀ j ∈ before, j.width? = none) → ∀ j ∈ before ++ [final], ∀ width, j.width? = some width →
        width = .ofSize ty.size := by
    intro before final hfinal hbefore j hj width hwidth
    rcases List.mem_append.mp hj with hj | hj
    · cases (hbefore j hj).symm.trans hwidth
    · obtain rfl := List.mem_singleton.mp hj
      exact Option.mem_unique hwidth hfinal
  have hgives : Gives (sel.selectInstr i) fun code =>
      ∀ j ∈ code, ∀ width, j.width? = some width → width = .ofSize ty.size := by
    rcases hi with ⟨d, rfl, hty⟩ | ⟨value, rfl, hty⟩
    · refine .bind .lift fun ty' hty' => .bind (gives_address_still name) fun r hr => ?_
      obtain rfl := Except.ok.inj (hty.symm.trans hty')
      exact .bind .any fun rd _ => .pure (hlast rfl hr)
    · refine .bind .lift fun ty' hty' => .bind (gives_operand_still value) fun v hv => ?_
      obtain rfl := Except.ok.inj (hty.symm.trans hty')
      exact .bind (gives_address_still name) fun r hr => .pure (hlast rfl fun j hj =>
        (List.mem_append.mp hj).elim (hv j) (hr j))
  exact hgives h j hj width hwidth

end

theorem size_eq_one_iff (hkept : ty.IsKept) : ty.size = 1 ↔ ty = .bool := by
  cases ty with
  | cond => exact hkept.elim
  | _ => simp [Flow.Ty.size, wordSize]

theorem DataItem.le_bytes (h : DataItem.ofFlow v = .ok item)
    (hwidth : width = .byte ↔ v.ty = .bool) : width.bytes ≤ item.value.bytes := by
  unfold DataItem.ofFlow at h
  have hword : width.bytes ≤ wordSize := by cases width <;> decide
  split at h
  · cases h
    exact hword
  · split at h
    · rename_i hbool
      cases h
      rw [hwidth.mpr hbool]
      exact le_rfl
    · cases h
      exact hword
  · cases h

/-- **Every access to a cell or a global has the size of the object it names**, if no variable
is void, also in a program whose expressions are not typed right. -/
theorem accesses_fit {p : Source.Program} {symbols : Source.Symbols} {log log' : Log}
    {program : Flow.Program} (h : Flow.Program.ofSource p symbols log = .ok program log')
    (hvoid : ∀ ty ∈ p.variableTypes, ty ≠ .void) :
    ∀ source ∈ program.allFunctions, ∀ options,
      (∀ f g, Function.ofFlow program source options = .ok f → Spills f g →
        ∀ i ∈ g.code, ∀ width r slot,
          i = .load width r .sp (.slot slot) ∨ i = .store width r .sp (.slot slot) →
          ∃ object, g.frame.objects.get? slot = some object ∧
            (width = .byte ↔ object.size = 1) ∧ (width = .word ↔ object.size = wordSize)) ∧
      ∀ id b, source.blocks.get? id = some b → ∀ i ∈ b.instrs.toList, ∀ name,
        (∃ d, i = .load d (.global name)) ∨ (∃ value, i = .store value (.global name)) →
        ∃ v item, (program.globals.find? fun g => g.name == name) = some v ∧
          DataItem.ofFlow v = .ok item ∧
          ∀ n code n', Selector.selectInstr ⟨program, source, options⟩ i n = .ok (code, n') →
            ∀ j ∈ code, ∀ width, j.width? = some width →
              (width = .byte ↔ v.ty = .bool) ∧ width.bytes ≤ item.value.bytes := by
  intro source hsource options
  have hholds := Flow.Program.holds_of_ofSource h hsource
  refine ⟨fun f g hf hspills i hi width r slot haccess => ?_, fun id b hb i hi name haccess => ?_⟩
  · have horderly : f.Orderly _ True :=
      .of_ofFlow hf fun _ id b hb i hi => suits_of_holds hholds hvoid hf hb hi
    have hframed := (horderly.of_spills hspills).framed i hi
    rcases haccess with rfl | rfl
    · exact hframed.2.2.2 trivial
    · exact hframed.2.2 trivial
  · have hreaches := (hholds.instrs id b hb i (Array.mem_toList_iff.mp hi)).reaches
    obtain ⟨v, hkept, hv, htype⟩ : ∃ v : Flow.Global, v.ty.IsKept ∧
        (program.globals.find? fun g => g.name == name) = some v ∧
        Selector.AccessType ⟨program, source, options⟩ name v.ty i := by
      rcases haccess with ⟨d, rfl⟩ | ⟨value, rfl⟩
      · obtain ⟨_, hkept, ⟨v, hv, rfl⟩, hty⟩ := hreaches
        exact ⟨v, hkept, hv, .inl ⟨d, rfl, hty⟩⟩
      · obtain ⟨_, hkept, ⟨v, hv, rfl⟩⟩ := hreaches
        refine ⟨v, hkept, hv, .inr ⟨value, rfl, ?_⟩⟩
        simp [Selector.storedType, Selector.pointeeType?, Option.mem_def.mp hv, bind, Except.bind,
          pure, Except.pure]
    obtain ⟨unit, hunit⟩ := Flow.Program.ofSource_eq_ok h
    obtain ⟨placed, -, hplaced, hglobals, -⟩ := Flow.lowers_of_lowerUnit hunit
    obtain ⟨item, hitem⟩ := DataItem.exists_ofFlow ((Flow.records_placeGlobals hplaced).initial v
      (hglobals ▸ List.mem_of_find?_eq_some hv))
    refine ⟨v, item, hv, hitem, fun n code n' hcode j hj width hwidth => ?_⟩
    obtain rfl := width_of_selectInstr htype hcode hj hwidth
    have hbyte := Width.ofSize_eq_byte.trans (size_eq_one_iff hkept)
    exact ⟨hbyte, DataItem.le_bytes hitem hbyte⟩

/-- A global and a parameter, both of them truth values; the one is set to the other. -/
def toggler : Source.Program :=
  let bool : Source.Ty := { base := .bool }
  [ .globals ⟨bool, [⟨"power", none⟩]⟩,
    .function {
      name := "main", returnType := .void, parameters := [⟨"isOn", bool⟩]
      body := [.evaluate (.assign bool (.ident bool "power") (.ident bool "isOn"))] } ]

/-- What the code of `toggler` is checked for: the graph sets the global, and with the register
of the parameter spilled there are accesses to two objects of the frame. -/
def setsPower (program : Flow.Program) (source : Flow.Function) : Bool :=
  ((source.blocks.get? ⟨0⟩).any fun b =>
    b.instrs.toList.contains (.store (.register ⟨2⟩) (.global "power"))) &&
  match Function.ofFlow program source {} with
  | .ok f =>
    (f.spill [⟨0⟩]).code.contains (.store .byte (.virtual ⟨4⟩) .sp (.slot ⟨0⟩)) &&
      (f.spill [⟨0⟩]).code.contains (.load .word (.virtual ⟨4⟩) .sp (.slot ⟨1⟩))
  | .error _ => false

/-- Once the register of the parameter is spilled, the parameter stands in a byte of the frame
and the register in a word.  The global is a byte, and nothing wider is stored to it. -/
theorem accesses_fit_toggler :
    ∃ symbols program log source f byte word v item,
      Source.Symbols.collect toggler = .ok symbols ∧
      Flow.Program.ofSource toggler symbols #[] = .ok program log ∧
      source ∈ program.allFunctions ∧ Function.ofFlow program source {} = .ok f ∧
      (f.spill [⟨0⟩]).frame.objects.get? ⟨0⟩ = some byte ∧ byte.size = 1 ∧
      (f.spill [⟨0⟩]).frame.objects.get? ⟨1⟩ = some word ∧ word.size = wordSize ∧
      (program.globals.find? fun g => g.name == "power") = some v ∧ DataItem.ofFlow v = .ok item ∧
      ∀ n code n', Selector.selectInstr ⟨program, source, {}⟩
          (.store (.register ⟨2⟩) (.global "power")) n = .ok (code, n') →
        ∀ j ∈ code, ∀ width, j.width? = some width → width.bytes ≤ item.value.bytes := by
  obtain ⟨symbols, program, log, hsymbols, hlowered, hfacts⟩ :=
    Flow.Program.exists_ofSource toggler
      (fun _ program => program.allFunctions.any (setsPower program)) (by cbv)
  obtain ⟨source, hsource, hcode⟩ := List.any_eq_true.mp hfacts
  obtain ⟨hpower, hcode⟩ := Bool.and_eq_true_iff.mp hcode
  obtain ⟨b, hb, hpower⟩ := (Option.any_eq_true _ _).mp hpower
  split at hcode
  · rename_i f hf
    obtain ⟨hstore, hload⟩ := Bool.and_eq_true_iff.mp hcode
    obtain ⟨hfit, hglobal⟩ := accesses_fit hlowered (by decide) source hsource {}
    have hspilled := hfit f _ hf (.step [⟨0⟩] (.refl _))
    obtain ⟨byte, hbyte, hsize, -⟩ := hspilled _ (List.contains_iff_mem.mp hstore) _ _ _ (.inr rfl)
    obtain ⟨word, hword, -, hsize'⟩ := hspilled _ (List.contains_iff_mem.mp hload) _ _ _ (.inl rfl)
    obtain ⟨v, item, hv, hitem, hwidths⟩ :=
      hglobal _ b hb _ (List.contains_iff_mem.mp hpower) "power" (.inr ⟨_, rfl⟩)
    exact ⟨symbols, program, log, source, f, byte, word, v, item, hsymbols, hlowered, hsource, hf,
      hbyte, hsize.mp rfl, hword, hsize'.mp rfl, hv, hitem,
      fun n code n' hselect j hj width hwidth => (hwidths n code n' hselect j hj width hwidth).2⟩
  · cases hcode

end MxStar.Machine
