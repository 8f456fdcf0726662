import MxStar.Proofs.Flow.LoweredUnit
import MxStar.Proofs.Source.Declared

/-!
# Everything that is named exists

The code of a unit is made of phrases, and a phrase names only what its vocabulary has.
For a symbol table that was collected from the same program, what the vocabulary of a
unit has is there: each call names a function of the unit or of the support library,
and an object is constructed exactly if its class declares a constructor.
-/

namespace MxStar.Flow

open Build (int)
open Source (Symbols)

/-! ## Written code -/

/-- Code that is made of phrases. -/
inductive Written (V : Vocabulary) (strings : Nat) (registers : Table .register RegisterInfo) :
    List Instr → Prop
  | nil : Written V strings registers []
  | append {code phrase : List Instr} (hcode : Written V strings registers code)
    (hphrase : Phrase V strings registers phrase) : Written V strings registers (code ++ phrase)

/-- The code of a block is made of phrases, and its terminator reads what is known. -/
structure Block.Linked (V : Vocabulary) (strings : Nat) (registers : Table .register RegisterInfo)
    (b : Block) : Prop where
  code : Written V strings registers b.instrs.toList
  terminator : ∀ t ∈ b.terminator, ∀ o ∈ t.operands, o.Known V strings

variable {code : List Instr}

section

variable {V : Vocabulary} {n m : Nat} {registers registers' : Table .register RegisterInfo}

theorem Phrase.of_registers (h : Phrase V n registers code)
    (hgrow : ∀ d info, registers.get? d = some info → registers'.get? d = some info) :
    Phrase V n registers' code := by
  cases h with
  | plain i hplain hknown => exact .plain i hplain hknown
  | cast d value info hinfo hty hknown => exact .cast d value info (hgrow d info hinfo) hty hknown
  | member d base struct field hstruct hfield hknown =>
    exact .member d base struct field hstruct hfield hknown
  | call d symbol arguments hcalls hknown => exact .call d symbol arguments hcalls hknown
  | creation struct memory object hstruct hobject =>
    exact .creation struct memory object hstruct (hgrow _ _ hobject)

theorem Written.mono (h : Written V n registers code) (hle : n ≤ m)
    (hgrow : ∀ d info, registers.get? d = some info → registers'.get? d = some info) :
    Written V m registers' code := by
  induction h with
  | nil => exact .nil
  | append _ hphrase ih => exact .append ih ((hphrase.mono hle).of_registers hgrow)

variable {b : Block} (h : b.Linked V n registers)
include h

theorem Block.Linked.mono (hle : n ≤ m)
    (hgrow : ∀ d info, registers.get? d = some info → registers'.get? d = some info) :
    b.Linked V m registers' :=
  ⟨h.code.mono hle hgrow, fun t ht o ho => (h.terminator t ht o ho).mono hle⟩

theorem Block.Linked.write (hphrase : Phrase V n registers phrase) :
    (b.write phrase).Linked V n registers := by
  unfold Block.write
  split
  · exact h
  · exact ⟨by simpa using h.code.append hphrase, h.terminator⟩

theorem Block.Linked.close (ht : ∀ o ∈ t.operands, o.Known V n) :
    (b.close t).Linked V n registers := by
  unfold Block.close
  split
  · exact h
  · refine ⟨h.code, fun t' ht' => ?_⟩
    obtain rfl := Option.mem_some_iff.mp ht'
    exact ht

end

def Builder.Linked (V : Vocabulary) (s : Builder) : Prop :=
  ∀ id b, s.function.blocks.get? id = some b → b.Linked V s.strings.size s.function.registers

section

variable {V : Vocabulary} {s s' : Builder}

theorem Builder.Linked.change (h : s.Linked V) {edit : Block → Block}
    (hedit : ∀ b, b.Linked V s.strings.size s.function.registers →
      (edit b).Linked V s.strings.size s.function.registers) : (s.change edit).Linked V := by
  intro id b hb
  simp only [Builder.change, Table.get?_modify] at hb
  split at hb
  · obtain ⟨b0, hb0, rfl⟩ := Option.map_eq_some_iff.mp hb
    exact hedit b0 (h id b0 hb0)
  · exact h id b hb

theorem Move.linked (hmove : Move V s s') (h : s.Linked V) : s'.Linked V := by
  cases hmove with
  | intern value =>
    exact fun id b hb => (h id b hb).mono (s.strings.size_le_size_intern value) fun _ _ hd => hd
  | block tag terminator htag hterm =>
    intro id b hb
    simp only [Table.get?_push] at hb
    split at hb
    · cases hb
      refine ⟨.nil, fun t ht o ho => ?_⟩
      -- an inherited terminator was already checked in the block it comes from
      rcases hterm t ht with hnone | ⟨id', b', hb', ht'⟩
      · simp [hnone] at ho
      · exact (h id' b' hb').terminator t ht' o ho
    · exact h id b hb
  | register info =>
    exact fun id b hb => (h id b hb).mono le_rfl fun d info' hd => Table.get?_push_of_get? hd info
  | code phrase hphrase => exact h.change fun b hb => hb.write hphrase
  | finish t hknown => exact h.change fun b hb => hb.close hknown
  | _ => exact h

theorem Moves.linked (hmoves : Moves V s s') (h : s.Linked V) : s'.Linked V := by
  induction hmoves with
  | refl => exact h
  | tail _ hmove ih => exact hmove.linked ih

end

/-! ## Functions -/

def Function.Linked (V : Vocabulary) (strings : Nat) (f : Function) : Prop :=
  ∀ id b, f.blocks.get? id = some b → b.Linked V strings f.registers

section

variable {V : Vocabulary} {unit unit' : UnitState}

theorem linked_openedBlocks (label : Nat) (strings : Nat) (registers : Table .register RegisterInfo)
    {id : BlockId} (hb : (openedBlocks label).get? id = some b) : b.Linked V strings registers := by
  have hmem : b ∈ (openedBlocks label).entries.toList :=
    List.mem_of_getElem? (by simpa [Table.get?] using hb)
  simp only [openedBlocks, List.mem_cons, List.not_mem_nil, or_false] at hmem
  rcases hmem with rfl | rfl
  · exact ⟨.nil, by simp [Terminator.operands]⟩
  · exact ⟨.nil, by simp⟩

theorem Body.linked (h : Body V unit unit' source f) :
    unit.strings.size ≤ unit'.strings.size ∧ f.Linked V unit'.strings.size := by
  obtain ⟨opened, closed, hblocks, hstrings, -, hmoves, ⟨layout, hedges⟩, hstrings', -⟩ := h.moves
  rw [← hstrings, hstrings']
  refine ⟨hmoves.size_le, fun id b hb => ?_⟩
  have hclosed : closed.Linked V :=
    hmoves.linked fun id b hb => linked_openedBlocks unit.nextLabel _ _ (hblocks ▸ hb)
  have hcode := Function.sameCode_of_rebuildEdges hedges
  obtain ⟨b0, hb0⟩ := Table.exists_get? (hcode.size ▸ Table.lt_size_of_get? hb)
  obtain ⟨b', hb', hsame⟩ := hcode.blocks id b0 hb0
  obtain rfl := Option.mem_unique hb hb'
  have hlinked := hclosed id b0 hb0
  rw [hcode.registers]
  exact ⟨hsame.instrs ▸ hlinked.code, fun t ht => hlinked.terminator t (hsame.terminator ▸ ht)⟩

theorem Bodies.linked (h : Bodies V unit sources fs unit') :
    unit.strings.size ≤ unit'.strings.size ∧ ∀ f ∈ fs, f.Linked V unit'.strings.size := by
  induction h with
  | nil hstrings hlabel => exact ⟨by rw [hstrings], by simp⟩
  | cons head _ ih =>
    obtain ⟨hle, hf⟩ := head.linked
    refine ⟨hle.trans ih.1, List.forall_mem_cons.mpr ⟨fun id b hb => ?_, ih.2⟩⟩
    exact (hf id b hb).mono ih.1 fun _ _ hd => hd

end

/-! ## Units -/

def Program.Defines (program : Program) (symbol : String) : Prop :=
  ∃ f ∈ program.allFunctions, f.name = symbol

def Program.Has (program : Program) : Operand → Prop
  | .global name => ∃ g ∈ program.globals, g.name = name
  | .string id => ∃ text, program.strings.get? id = some text
  | .register _ | .constant _ => True

/-- What an instruction names is there. -/
structure Instr.Resolves (program : Program) (i : Instr) : Prop where
  operands : ∀ o ∈ i.operands, program.Has o
  call : ∀ d symbol arguments, i = .call d symbol arguments →
    program.Defines symbol ∨ symbol ∈ Linkage.support
  member : ∀ d base name field, i = .memberAddress d base name field →
    ∃ struct, program.struct? name = some struct ∧ field < struct.members.length

section

variable {p : Source.Program} {symbols : Symbols} {unit unit' : UnitState} {program : Program}

theorem Program.has_of_known (h : o.Known (program.vocabulary symbols) program.strings.size) :
    program.Has o := by
  cases o with
  | string id => exact Table.exists_get? h
  | _ => exact h

theorem Program.defines_of_mem_bodies (h : lowerUnit p symbols unit = .ok program unit')
    (hf : (owner, f) ∈ p.flatMap definitionBodies) : program.Defines (bodySource owner f).name := by
  have hmem : (bodySource owner f).name ∈ program.functions.map Function.name := by
    rw [(names_of_lowerUnit h).1]
    exact List.mem_map.mpr ⟨(owner, f), hf, rfl⟩
  obtain ⟨g, hg, hname⟩ := List.mem_map.mp hmem
  exact ⟨g, List.mem_append_right _ hg, hname⟩

section

variable (hsyms : symbols.Holds p)
include hsyms

theorem Program.defines_of_calls (h : lowerUnit p symbols unit = .ok program unit')
    (hcalls : (program.vocabulary symbols).calls symbol) :
    program.Defines symbol ∨ symbol ∈ Linkage.support := by
  rcases hcalls with hfun | ⟨className, method, hmethod, rfl⟩ | hsupport | ⟨hsome, rfl⟩
  · have hname := (hsyms.functions.mem symbol).mp
      (Std.ExtTreeMap.mem_iff_isSome_getElem?.mpr hfun)
    obtain ⟨f, hf, rfl⟩ := Source.Program.mem_functionNames.mp hname
    have hbody : (none, f) ∈ p.flatMap definitionBodies :=
      List.mem_flatMap.mpr ⟨_, hf, List.mem_singleton_self (none, f)⟩
    exact .inl (defines_of_mem_bodies h hbody)
  · obtain ⟨info, hinfo, hmem⟩ := (Option.any_eq_true _ _).mp hmethod
    obtain ⟨c, hc, rfl, hc'⟩ := (hsyms.classes.get? className info).mp hinfo
    obtain ⟨m, hm, rfl⟩ := List.mem_map.mp (((Source.ClassDef.info_eq_ok hc').2.2.2.mem method).mp
      (Std.ExtTreeMap.contains_iff_mem.mp hmem))
    have hbody : (some c.name, m) ∈ p.flatMap definitionBodies :=
      List.mem_flatMap.mpr ⟨_, hc, List.mem_map.mpr ⟨m, List.mem_append_right _ hm, rfl⟩⟩
    exact .inl (defines_of_mem_bodies h hbody)
  · exact .inr hsupport
  · obtain ⟨g, hg⟩ := Option.isSome_iff_exists.mp hsome
    refine .inl ⟨g, List.mem_append_left _ (by simp [hg]), ?_⟩
    exact (names_of_lowerUnit h).2 g hg

theorem exists_classDef_of_mem_structsOf (hmem : struct ∈ structsOf symbols) :
    ∃ c, .object c ∈ p ∧ c.name = struct.name ∧ struct.hasConstructor = c.constructor.isSome := by
  obtain ⟨info, hinfo, rfl⟩ := List.mem_map.mp hmem
  obtain ⟨name, -, hclass⟩ := List.mem_filterMap.mp hinfo
  obtain ⟨c, hc, hname, hc'⟩ := (hsyms.classes.get? name info).mp hclass
  obtain ⟨hinfoName, hctor, -⟩ := Source.ClassDef.info_eq_ok hc'
  exact ⟨c, hc, hinfoName.symm, hctor⟩

variable (h : lowerUnit p symbols unit = .ok program unit')
include h

theorem Program.defines_constructor (hmem : struct ∈ structsOf symbols)
    (hctor : struct.hasConstructor = true) :
    program.Defines (Linkage.methodSymbol struct.name struct.name) := by
  obtain ⟨c, hc, hname, heq⟩ := exists_classDef_of_mem_structsOf hsyms hmem
  obtain ⟨body, hbody⟩ := Option.isSome_iff_exists.mp (heq ▸ hctor)
  have hmem : (some c.name, constructorDef c body) ∈ p.flatMap definitionBodies := by
    refine List.mem_flatMap.mpr ⟨_, hc, List.mem_map.mpr ⟨_, List.mem_append_left _ ?_, rfl⟩⟩
    exact List.mem_map.mpr ⟨body, by simp [hbody], rfl⟩
  rw [← hname]
  exact defines_of_mem_bodies h hmem

theorem Phrase.resolves (hstrs : program.structs = structsOf symbols)
    (hphrase : Phrase (program.vocabulary symbols) program.strings.size registers phrase) :
    ∀ i ∈ phrase, i.Resolves program := by
  cases hphrase with
  | plain i hplain hknown =>
    rw [List.forall_mem_singleton]
    refine ⟨fun o ho => Program.has_of_known (hknown o ho), ?_, ?_⟩
    · rintro d symbol arguments rfl
      cases hplain
    · rintro d base name field rfl
      cases hplain
  | cast d value info hinfo hty hknown =>
    rw [List.forall_mem_singleton]
    exact ⟨by simpa [Instr.operands] using Program.has_of_known hknown, nofun, nofun⟩
  | member d base struct field hstruct hfield hknown =>
    rw [List.forall_mem_singleton]
    refine ⟨by simpa [Instr.operands] using Program.has_of_known hknown, nofun, ?_⟩
    rintro d' base' name field' heq
    obtain ⟨-, -, rfl, rfl⟩ := Instr.memberAddress.inj heq
    exact ⟨struct, hstruct, hfield⟩
  | call d symbol arguments hcalls hknown =>
    rw [List.forall_mem_singleton]
    refine ⟨fun o ho => Program.has_of_known (hknown o ho), ?_, nofun⟩
    rintro d' symbol' arguments' heq
    obtain ⟨-, rfl, -⟩ := Instr.call.inj heq
    exact Program.defines_of_calls hsyms h hcalls
  | creation struct memory object hstruct hobject =>
    intro i hi
    rcases List.mem_append.mp hi with hi | hi
    · simp only [List.mem_cons, List.not_mem_nil, or_false] at hi
      rcases hi with rfl | rfl
      · refine ⟨by simp [Instr.operands, int, Program.Has], ?_, nofun⟩
        rintro d symbol arguments heq
        obtain ⟨-, rfl, -⟩ := Instr.call.inj heq
        exact .inr (by decide)
      · exact ⟨by simp [Instr.operands, Program.Has], nofun, nofun⟩
    · split at hi
      · rename_i hctor
        obtain rfl := List.mem_singleton.mp hi
        refine ⟨by simp [Instr.operands, Program.Has], ?_, nofun⟩
        rintro d symbol arguments heq
        obtain ⟨-, rfl, -⟩ := Instr.call.inj heq
        have hmem : struct ∈ structsOf symbols := hstrs ▸ List.mem_of_find?_eq_some hstruct
        exact .inl (Program.defines_constructor hsyms h hmem hctor)
      · simp at hi

theorem Written.resolves (hstrs : program.structs = structsOf symbols)
    (hcode : Written (program.vocabulary symbols) program.strings.size registers code) :
    ∀ i ∈ code, i.Resolves program := by
  induction hcode with
  | nil => simp
  | append _ hphrase ih =>
    intro i hi
    rcases List.mem_append.mp hi with hi | hi
    · exact ih i hi
    · exact hphrase.resolves hsyms h hstrs i hi

end

theorem known_placeGlobals (h : placeGlobals p = .ok placed) :
    ∀ g ∈ placed.globals, g.initial.Known V placed.strings.size := by
  refine invariant_of_placeGlobals
    (P := fun placed => ∀ g ∈ placed.globals, g.initial.Known V placed.strings.size) (by simp)
    (fun placed d _ placed' hplaced hplace g hg => ?_) h
  obtain ⟨-, initial, hglobals, hcases⟩ := Placed.place_cases hplace
  have hnew : placed.strings.size ≤ placed'.strings.size ∧
      initial.Known V placed'.strings.size := by
    rcases hcases with ⟨ty, value, -, hliteral, -⟩ | ⟨-, ⟨c, rfl⟩, hstrings, -⟩
    · obtain ⟨rfl, hstrings⟩ := Prod.mk.inj hliteral
      rw [← hstrings]
      cases value with
      | text text =>
        exact ⟨placed.strings.size_le_size_intern text, placed.strings.lt_size_intern text⟩
      | _ => exact ⟨le_rfl, trivial⟩
    · exact ⟨hstrings ▸ le_rfl, trivial⟩
  rw [hglobals] at hg
  rcases List.mem_append.mp hg with hg | hg
  · exact (hplaced g hg).mono hnew.1
  · rw [List.mem_singleton.mp hg]
    exact hnew.2

end

/-- Everything that a unit names is there. -/
structure Program.Linked (program : Program) (p : Source.Program) (symbols : Symbols) : Prop where
  code : ∀ f ∈ program.allFunctions, ∀ id b, f.blocks.get? id = some b →
    (∀ i ∈ b.instrs.toList, i.Resolves program) ∧
      ∀ t ∈ b.terminator, ∀ o ∈ t.operands, program.Has o
  initial : ∀ g ∈ program.globals, program.Has g.initial
  /-- Objects are made by creations only, and a creation calls the constructor of its class
  exactly if the class has one -/
  creations : ∀ f ∈ program.allFunctions, ∀ id b, f.blocks.get? id = some b →
    Written (program.vocabulary symbols) program.strings.size f.registers b.instrs.toList
  constructors : ∀ struct ∈ program.structs, ∃ c, .object c ∈ p ∧ c.name = struct.name ∧
    struct.hasConstructor = c.constructor.isSome

/-- **The unit of a program names nothing that does not exist**, if it is lowered with the
symbols of the same program. -/
theorem Program.linked_of_lowerUnit (hsyms : symbols.Holds p)
    (h : lowerUnit p symbols unit = .ok program unit') : program.Linked p symbols := by
  obtain ⟨placed, unit1, hplaced, hglobals, hstrs, hstrings, hinit, hfuns⟩ :=
    lowers_of_lowerUnit h
  obtain ⟨hle, hlinked⟩ := (hinit.append hfuns).bodies.linked
  rw [← hstrings] at hle hlinked
  refine ⟨fun f hf id b hb => ?_, fun g hg => ?_, fun f hf id b hb => ?_, fun struct hmem => ?_⟩
  · have hblock := hlinked f hf id b hb
    exact ⟨hblock.code.resolves hsyms h hstrs,
      fun t ht o ho => has_of_known (hblock.terminator t ht o ho)⟩
  · have hknown := known_placeGlobals (V := program.vocabulary symbols) hplaced g (hglobals ▸ hg)
    exact has_of_known (hknown.mono hle)
  · exact (hlinked f hf id b hb).code
  · exact exists_classDef_of_mem_structsOf hsyms (hstrs ▸ hmem)

end MxStar.Flow
