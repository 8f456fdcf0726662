import MxStar.Proofs.Assembly.Labels

/-!
# Numbers that instructions have room for

An instruction has twelve bits for a number, and a shift has five for its amount.  Selected code
keeps to that, before and after registers are allocated, since every number that it takes over from
the graph is looked at first.  Offsets into the frame are not known then: printing builds one that
does not fit in the scratch register (`access`, `addToStack`).  So every line of the text can be
encoded (`immediates_encodable`).
-/

namespace MxStar

open Machine (AluImmOp Function FrameLayout FrameUse Instr Module Options Register)

/-- The instruction has room for the number. -/
def Machine.AluImmOp.Takes (op : AluImmOp) (value : Int) : Prop :=
  -2048 ≤ value ∧ value ≤ 2047 ∧ (op = .slli ∨ op = .srai → 0 ≤ value ∧ value ≤ 31)

theorem Machine.AluImmOp.takes_of_encodes {op : AluImmOp} {value : Word}
    (h : op.encodes value = true) : op.Takes value.toInt := by
  have hshift : value.toNat < 32 → 0 ≤ value.toInt ∧ value.toInt ≤ 31 := by
    intro hlt
    rw [BitVec.toInt_eq_toNat_of_lt (by omega)]
    omega
  cases op with
  | slli | srai =>
    have hvalue := hshift (of_decide_eq_true h)
    exact ⟨by omega, by omega, fun _ => hvalue⟩
  | _ =>
    obtain ⟨hmin, hmax⟩ := of_decide_eq_true (show fitsImmediate value.toInt = true from h)
    exact ⟨hmin, hmax, by simp⟩

namespace Assembly

/-- A line whose number can be encoded: an operand, or an offset in memory. -/
def Line.Encodable : Line → Prop
  | .aluImm op _ _ value => op.Takes value
  | .load _ _ _ offset | .store _ _ _ offset => -2048 ≤ offset ∧ offset ≤ 2047
  | _ => True

theorem encodable_access {line : Register → Int → Line}
    (hline : ∀ base offset, -2048 ≤ offset ∧ offset ≤ 2047 → (line base offset).Encodable)
    (base : Register) (offset : Int) : ∀ l ∈ access line base offset, l.Encodable := by
  unfold access
  split
  · rename_i hfits
    simpa using hline base offset (of_decide_eq_true hfits)
  · simpa [Line.Encodable] using hline scratch 0 (by decide)

theorem encodable_load (width : Machine.Width) (rd base : Register) (offset : Int) :
    ∀ l ∈ access (.load width rd) base offset, l.Encodable := by
  refine encodable_access ?_ base offset
  exact fun _ _ hfits => hfits

theorem encodable_store (width : Machine.Width) (rs base : Register) (offset : Int) :
    ∀ l ∈ access (.store width rs) base offset, l.Encodable := by
  refine encodable_access ?_ base offset
  exact fun _ _ hfits => hfits

theorem encodable_addToStack (rd : Register) (amount : Int) :
    ∀ l ∈ addToStack rd amount, l.Encodable := by
  unfold addToStack
  split
  · rename_i hfits
    obtain ⟨hmin, hmax⟩ := of_decide_eq_true hfits
    simpa [Line.Encodable, AluImmOp.Takes] using ⟨hmin, hmax⟩
  · simp [Line.Encodable]

theorem encodable_prologue (layout : FrameLayout) : ∀ l ∈ prologue layout, l.Encodable := by
  unfold prologue
  split
  · simp
  · refine List.forall_mem_append.mpr ⟨encodable_addToStack _ _, fun l hl => ?_⟩
    obtain ⟨p, -, hl⟩ := List.mem_flatMap.mp hl
    exact encodable_store _ _ _ _ l hl

theorem encodable_epilogue (layout : FrameLayout) : ∀ l ∈ epilogue layout, l.Encodable := by
  unfold epilogue
  split
  · simp [Line.Encodable]
  · refine List.forall_mem_append.mpr ⟨List.forall_mem_append.mpr ⟨fun l hl => ?_,
      encodable_addToStack _ _⟩, by simp [Line.Encodable]⟩
    obtain ⟨p, -, hl⟩ := List.mem_flatMap.mp hl
    exact encodable_load _ _ _ _ l hl

theorem encodable_instrLines (hi : i.Framed u) (h : instrLines f layout next i = .ok lines) :
    ∀ l ∈ lines, l.Encodable := by
  cases i with
  | aluImm op rd rs value =>
    cases h
    simpa [Line.Encodable] using AluImmOp.takes_of_encodes hi.2
  | slotAddress rd slot =>
    obtain ⟨offset, -, rfl⟩ := Except.bind_pure_eq_ok.mp h
    exact encodable_addToStack rd offset
  | load width rd base offset =>
    obtain ⟨offset, -, rfl⟩ := Except.bind_pure_eq_ok.mp h
    exact encodable_load width rd base offset
  | store width rs base offset =>
    obtain ⟨offset, -, rfl⟩ := Except.bind_pure_eq_ok.mp h
    exact encodable_store width rs base offset
  | jump target =>
    simp only [instrLines] at h
    split at h
    · cases h
      simp
    · obtain ⟨label, -, rfl⟩ := Except.bind_pure_eq_ok.mp h
      simp [Line.Encodable]
  | branch condition positive negative =>
    simp only [instrLines] at h
    split at h
    · obtain ⟨label, -, rfl⟩ := Except.bind_pure_eq_ok.mp h
      simp [Line.Encodable]
    · obtain ⟨label, -, h⟩ := Except.bind_eq_ok.mp h
      split at h
      · cases h
        simp [Line.Encodable]
      · obtain ⟨label', -, rfl⟩ := Except.bind_pure_eq_ok.mp h
        simp [Line.Encodable]
  | ret hasValue =>
    cases h
    exact encodable_epilogue layout
  | _ =>
    cases h
    simp [Line.Encodable]

theorem encodable_functionLines (hf : f.Orderly incoming) (h : functionLines f = .ok lines) :
    ∀ l ∈ lines, l.Encodable := by
  obtain ⟨layout, -, h⟩ := Except.bind_eq_ok.mp h
  obtain ⟨blocks, hblocks, rfl⟩ := Except.bind_pure_eq_ok.mp h
  refine List.forall_mem_append.mpr ⟨List.forall_mem_append.mpr ⟨by simp [Line.Encodable],
    encodable_prologue layout⟩, fun l hl => ?_⟩
  obtain ⟨lines, hlines, hl⟩ := List.mem_flatten.mp hl
  obtain ⟨⟨id, b⟩, hp, hblock⟩ := (List.forall₂_of_mapM_eq_ok hblocks).exists_of_mem_right hlines
  obtain ⟨pieces, hpieces, rfl⟩ := Except.bind_pure_eq_ok.mp hblock
  rcases List.mem_cons.mp hl with rfl | hl
  · trivial
  · obtain ⟨piece, hpiece, hl⟩ := List.mem_flatten.mp hl
    obtain ⟨i, hi, hlines⟩ := (List.forall₂_of_mapM_eq_ok hpieces).exists_of_mem_right hpiece
    refine encodable_instrLines (hf.framed i ?_) hlines l hl
    exact List.mem_flatMap.mpr ⟨b, Table.mem_entries_of_mem_pairs hp, hi⟩

end Assembly

/-- Every number of the code can be encoded, and so can every number of its text, if any. -/
structure Machine.Module.Encodable (m : Module) : Prop where
  code : ∀ f ∈ m.functions, ∀ op rd rs value, .aluImm op rd rs value ∈ f.code →
    op.Takes value.toInt
  text : ∀ text, Assembly.emit m = .ok text → ∃ s, Assembly.Sections.ofModule m = .ok s ∧
    text = s.render ∧ ∀ l ∈ s.rodata ++ s.data ++ s.text.flatten, l.Encodable

theorem Machine.Module.encodable_of_orderly {m : Module}
    (h : ∀ f ∈ m.functions, ∃ incoming, f.Orderly incoming) : m.Encodable := by
  refine ⟨fun f hf op rd rs value hi => ?_, fun text htext => ?_⟩
  · obtain ⟨incoming, horderly⟩ := h f hf
    exact AluImmOp.takes_of_encodes (horderly.framed _ hi).2
  · obtain ⟨s, hs, rfl⟩ := Except.bind_pure_eq_ok.mp htext
    refine ⟨s, hs, rfl, ?_⟩
    obtain ⟨texts, htexts, rfl⟩ := Except.bind_pure_eq_ok.mp hs
    refine List.forall_mem_append.mpr ⟨List.forall_mem_append.mpr ⟨fun l hl => ?_, fun l hl => ?_⟩,
      fun l hl => ?_⟩
    · obtain ⟨entry, -, hl⟩ := List.mem_flatMap.mp hl
      fin_cases hl <;> trivial
    · obtain ⟨item, -, hl⟩ := List.mem_flatMap.mp hl
      unfold Assembly.dataLines at hl
      split at hl <;> fin_cases hl <;> trivial
    · obtain ⟨lines, hlines, hl⟩ := List.mem_flatten.mp hl
      obtain ⟨f, hf, hlines⟩ := (List.forall₂_of_mapM_eq_ok htexts).exists_of_mem_right hlines
      obtain ⟨incoming, horderly⟩ := h f hf
      exact Assembly.encodable_functionLines horderly hlines l hl

/-- **Every number that is printed can be encoded**, in the code that is selected and in what
allocation makes of it, whatever constants, sizes of frames and numbers of arguments there are. -/
theorem immediates_encodable {program : Flow.Program} {options : Options} {m : Module}
    {log log' : Log} (h : Module.ofFlow program options log = .ok m log') :
    m.Encodable ∧ ∀ functions before after,
      m.functions.mapM (allocateFunction options) before = .ok functions after →
      Module.Encodable { m with functions } := by
  have horderly : ∀ f ∈ m.functions, ∃ incoming, f.Orderly incoming := by
    intro f hf
    obtain ⟨source, -, hflow⟩ := (Module.forall₂_ofFlow h).exists_of_mem_right hf
    exact ⟨_, .of_ofFlow hflow False.elim⟩
  refine ⟨Module.encodable_of_orderly horderly, fun functions before after hallocated => ?_⟩
  refine Module.encodable_of_orderly fun g hg => ?_
  obtain ⟨f, hf, s, s', hfg⟩ := (EStateM.forall₂_of_mapM_eq_ok hallocated).exists_of_mem_right hg
  obtain ⟨incoming, hincoming⟩ := horderly f hf
  obtain ⟨l, hallocate⟩ := Assembly.allocateRegisters_of_allocateFunction hfg
  exact ⟨incoming, hincoming.allocateRegisters hallocate⟩

/-- A number less 2048, shifted by more than a word is wide. -/
def shiftedDifference : Flow.Function where
  name := "main"
  returnType := .int
  parameters := [⟨0⟩]
  registers := ⟨#[{ ty := .int }, { ty := .int }, { ty := .int }]⟩
  blocks := ⟨#[{
    label := "entry"
    instrs := #[.arith .sub ⟨1⟩ (.register ⟨0⟩) (.constant (.int 2048)),
      .arith .shl ⟨2⟩ (.register ⟨1⟩) (.constant (.int 37))]
    terminator := some (.ret (some (.register ⟨2⟩))) }]⟩
  layout := [⟨0⟩]

/-- The difference is a sum with the least number that fits, and the amount is taken modulo 32,
before allocation and after it. -/
theorem immediates_encodable_shiftedDifference :
    ∃ m after functions after' text,
      Module.ofFlow { functions := [shiftedDifference] } {} #[] = .ok m after ∧
      m.functions.mapM (allocateFunction {}) #[] = .ok functions after' ∧
      Assembly.emit { m with functions } = .ok text ∧
      (∃ f ∈ m.functions, .aluImm .addi (.virtual ⟨1⟩) (.virtual ⟨0⟩) (-2048) ∈ f.code) ∧
      (∃ g ∈ functions, .aluImm .slli (.physical .t0) (.physical .t0) 5 ∈ g.code) ∧
      m.Encodable ∧ Module.Encodable { m with functions } := by
  have hfacts : (Module.ofFlow { functions := [shiftedDifference] } {} #[]).passes (fun m =>
      (m.functions.any fun f =>
        f.code.contains (.aluImm .addi (.virtual ⟨1⟩) (.virtual ⟨0⟩) (-2048))) &&
      (m.functions.mapM (allocateFunction {}) #[]).passes fun functions =>
        (functions.any fun g =>
          g.code.contains (.aluImm .slli (.physical .t0) (.physical .t0) 5)) &&
        (Assembly.emit { m with functions }).isOk) = true := by decide +kernel
  obtain ⟨m, after, hm, hfacts⟩ := EStateM.exists_of_passes hfacts
  obtain ⟨hselected, hfacts⟩ := Bool.and_eq_true_iff.mp hfacts
  obtain ⟨functions, after', hfunctions, hfacts⟩ := EStateM.exists_of_passes hfacts
  obtain ⟨hallocated, htext⟩ := Bool.and_eq_true_iff.mp hfacts
  obtain ⟨text, htext⟩ := Except.exists_of_isOk htext
  simp only [List.any_eq_true, List.contains_iff_mem] at hselected hallocated
  obtain ⟨hencodable, hafter⟩ := immediates_encodable hm
  exact ⟨m, after, functions, after', text, hm, hfunctions, htext, hselected, hallocated,
    hencodable, hafter functions #[] after' hfunctions⟩

end MxStar
