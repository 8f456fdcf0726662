import MxStar.Proofs.Flow.Linked
import MxStar.Proofs.Generation

/-!
# A unit refers to its own labels

Selected code takes the addresses of strings and globals and calls functions.  In the
machine code of a program that was lowered with its own symbols, each of these is a label
of the same unit, or a call goes to the support library.
-/

namespace MxStar.Machine

def Module.labels (m : Module) : List String :=
  m.strings.map Prod.fst ++ m.globals.map DataItem.label ++ m.functions.map Function.name

section

variable {program : Flow.Program} {options : Options} {m : Module} {before after : Log}

theorem Module.ofFlow_eq_ok (h : Module.ofFlow program options before = .ok m after) :
    m.strings = program.strings.toList.map (fun (id, value) => (stringLabel id, value)) ∧
      List.Forall₂ (fun g item => DataItem.ofFlow g = .ok item) program.globals m.globals := by
  obtain ⟨globals, log1, hglobals, functions, log2, hfunctions, h⟩ := EStateM.bind2_eq_ok.mp h
  obtain ⟨rfl, -⟩ := EStateM.pure_eq_ok.mp h
  exact ⟨rfl, List.forall₂_of_mapM_eq_ok (EStateM.ofExcept_eq_ok.mp hglobals).1⟩

theorem Function.name_ofFlow (h : Function.ofFlow program source options = .ok f) :
    f.name = source.name := by
  obtain ⟨blocks, -, h⟩ := Except.bind_eq_ok.mp h
  obtain ⟨entry, -, h⟩ := Except.bind_eq_ok.mp h
  obtain ⟨exit, -, h⟩ := Except.bind_eq_ok.mp h
  obtain ⟨⟨all, N⟩, -, rfl⟩ := Except.bind_pure_eq_ok.mp h
  rfl

theorem DataItem.label_ofFlow (h : DataItem.ofFlow g = .ok item) : item.label = g.name := by
  unfold DataItem.ofFlow at h
  split at h
  · obtain rfl := Except.ok.inj h
    rfl
  · split at h <;>
      · obtain rfl := Except.ok.inj h
        rfl
  · cases h

section

variable (h : Module.ofFlow program options before = .ok m after)
include h

theorem Module.globalLabels_ofFlow :
    program.globals.map Flow.Global.name = m.globals.map DataItem.label :=
  ((Module.ofFlow_eq_ok h).2.imp fun _ _ hitem => (DataItem.label_ofFlow hitem).symm).map_eq_map

theorem Module.functionNames_ofFlow :
    program.allFunctions.map Flow.Function.name = m.functions.map Function.name :=
  ((Module.forall₂_ofFlow h).imp fun _ _ hf => (Function.name_ofFlow hf).symm).map_eq_map

theorem Module.stringLabel_mem_labels {id : Flow.StringId}
    (hid : program.strings.get? id = some text) : stringLabel id ∈ m.labels := by
  refine List.mem_append_left _ (List.mem_append_left _ ?_)
  rw [(Module.ofFlow_eq_ok h).1, List.map_map]
  exact List.mem_map.mpr ⟨(id, text), Table.mem_pairs.mpr hid, rfl⟩

theorem Module.global_mem_labels (hg : g ∈ program.globals) : g.name ∈ m.labels := by
  refine List.mem_append_left _ (List.mem_append_right _ ?_)
  rw [← Module.globalLabels_ofFlow h]
  exact List.mem_map_of_mem hg

theorem Module.function_mem_labels (hsymbol : program.Defines symbol) : symbol ∈ m.labels := by
  obtain ⟨f, hf, rfl⟩ := hsymbol
  refine List.mem_append_right _ ?_
  rw [← Module.functionNames_ofFlow h]
  exact List.mem_map_of_mem hf

end

/-! ## References -/

/-- A reference that the linker can follow: an address is that of a label of the unit, and
a call goes to one or to the support library. -/
def Module.Resolves (m : Module) : Reference → Prop
  | .address label => label ∈ m.labels
  | .call symbol => symbol ∈ m.labels ∨ symbol ∈ Linkage.support

variable (h : Module.ofFlow program options before = .ok m after)
include h

theorem Module.resolves_of_has (ho : program.Has o) : ∀ r ∈ o.references, m.Resolves r := by
  cases o with
  | global name =>
    obtain ⟨g, hg, rfl⟩ := ho
    simpa [Flow.Operand.references, Module.Resolves] using Module.global_mem_labels h hg
  | string id =>
    obtain ⟨text, hid⟩ := ho
    simpa [Flow.Operand.references, Module.Resolves] using Module.stringLabel_mem_labels h hid
  | _ => simp [Flow.Operand.references]

omit h in
theorem named_of_block {b : Flow.Block} (hcode : ∀ i ∈ b.instrs.toList, i.Resolves program)
    (hterminator : ∀ t ∈ b.terminator, ∀ o ∈ t.operands, program.Has o) {r : Reference}
    (hr : r ∈ b.references) :
    (∃ o, program.Has o ∧ r ∈ o.references) ∨
      ∃ symbol, r = .call symbol ∧ (program.Defines symbol ∨ symbol ∈ Linkage.support) := by
  rcases List.mem_append.mp hr with hr | hr
  · obtain ⟨i, hi, hr⟩ := List.mem_flatMap.mp hr
    rcases List.mem_append.mp hr with hr | hr
    · obtain ⟨o, ho, hr⟩ := List.mem_flatMap.mp hr
      exact .inl ⟨o, (hcode i hi).operands o ho, hr⟩
    · cases i with
      | call d symbol arguments =>
        exact .inr ⟨symbol, List.mem_singleton.mp hr, (hcode _ hi).call d symbol arguments rfl⟩
      | _ => simp at hr
  · obtain ⟨t, ht, hr⟩ := List.mem_flatMap.mp hr
    obtain ⟨o, ho, hr⟩ := List.mem_flatMap.mp hr
    exact .inl ⟨o, hterminator t (by simpa using ht) o ho, hr⟩

theorem Module.string_of_address (hinitial : ∀ g ∈ program.globals, program.Has g.initial)
    (hitem : item ∈ m.globals) {label : String} (hvalue : item.value = .address label) :
    ∃ id text, program.strings.get? id = some text ∧ label = stringLabel id := by
  obtain ⟨g, hg, hflow⟩ := (Module.ofFlow_eq_ok h).2.exists_of_mem_right hitem
  have hhas := hinitial g hg
  unfold DataItem.ofFlow at hflow
  split at hflow
  · rename_i id hid
    obtain rfl := Except.ok.inj hflow
    obtain rfl := DataValue.address.inj hvalue
    rw [hid] at hhas
    obtain ⟨text, htext⟩ := hhas
    exact ⟨id, text, htext, rfl⟩
  · split at hflow <;>
      · obtain rfl := Except.ok.inj hflow
        cases hvalue
  · cases hflow

end

/-- **No reference dangles.**  In the unit of a program that is lowered with its own symbols,
operands, calls and members name what the unit has, objects are constructed exactly if their
class declares a constructor, and the machine code refers only to labels of the unit and to
the support library. -/
theorem Module.linked_of_ofSource {p : Source.Program} {symbols : Source.Symbols} {log log' : Log}
    {program : Flow.Program} (hsymbols : Source.Symbols.collect p = .ok symbols)
    (h : Flow.Program.ofSource p symbols log = .ok program log') :
    program.Linked p symbols ∧
      ∀ options before, ∃ m after, Module.ofFlow program options before = .ok m after ∧
        (∀ f ∈ m.functions, ∀ r ∈ references f.code, m.Resolves r) ∧
          ∀ item ∈ m.globals, ∀ label, item.value = .address label → label ∈ m.labels := by
  obtain ⟨unit, hunit⟩ := Flow.Program.ofSource_eq_ok h
  have hlinked := Flow.Program.linked_of_lowerUnit (Source.Symbols.holds_of_collect hsymbols) hunit
  refine ⟨hlinked, fun options before => ?_⟩
  obtain ⟨m, after, hm⟩ := Module.exists_ofFlow_of_ofSource h options before
  refine ⟨m, after, hm, fun f hf r hr => ?_, fun item hitem label => ?_⟩
  · obtain ⟨source, hsource, hflow⟩ := (Module.forall₂_ofFlow hm).exists_of_mem_right hf
    obtain ⟨id, b, hb, hnames⟩ := exists_mem_references_of_ofFlow hflow hr
    obtain ⟨hcode, hterminator⟩ := hlinked.code source hsource id b hb
    rcases named_of_block hcode hterminator hnames with ⟨o, ho, hr⟩ | ⟨symbol, rfl, hsymbol⟩
    · exact Module.resolves_of_has hm ho r hr
    · exact hsymbol.imp_left (Module.function_mem_labels hm)
  · intro hvalue
    obtain ⟨id, text, htext, rfl⟩ := Module.string_of_address hm hlinked.initial hitem hvalue
    exact Module.stringLabel_mem_labels hm htext

/-- A class with a constructor, of which there is a global object, and one without. -/
def greeter : Source.Program :=
  let string : Source.Ty := { base := .string }
  let void : Source.Ty := { base := .void }
  let create (name : String) : Source.Expr :=
    .new { base := .object name } { base := .object name } []
  [ .globals ⟨{ base := .object "Greeter" }, [⟨"first", some (create "Greeter")⟩]⟩, .object {
      name := "Greeter"
      members := []
      constructor := some [.evaluate (.call void "print" [.literal string (.text "hello")])]
      methods := [] },
    .object { name := "Blank", members := [], constructor := none, methods := [] },
    .function {
      name := "main", returnType := void, parameters := []
      body := [.evaluate (create "Blank")] } ]

def calls (program : Flow.Program) : List (String × List String) :=
  program.allFunctions.map fun f =>
    (f.name, (f.blocks.entries.toList.flatMap Flow.Block.references).filterMap fun
      | .call symbol => some symbol
      | .address _ => none)

/-- The global is constructed before `main` goes on, and the object without a constructor is
only allocated. -/
theorem Module.linked_of_ofSource_greeter :
    ∃ symbols program log, Source.Symbols.collect greeter = .ok symbols ∧
      Flow.Program.ofSource greeter symbols #[] = .ok program log ∧
      calls program =
        [("__mx_global_init", ["__mx_malloc", "Greeter.Greeter"]), ("Greeter.Greeter", ["print"]),
          ("main", ["__mx_global_init", "__mx_malloc"])] ∧
      program.Linked greeter symbols ∧ ∃ m after, Module.ofFlow program {} #[] = .ok m after ∧
        (∀ f ∈ m.functions, ∀ r ∈ references f.code, m.Resolves r) ∧
          ∀ item ∈ m.globals, ∀ label, item.value = .address label → label ∈ m.labels := by
  obtain ⟨symbols, program, log, hsymbols, hlowered, hfacts⟩ :=
    Flow.Program.exists_ofSource greeter (fun _ program => calls program ==
      [("__mx_global_init", ["__mx_malloc", "Greeter.Greeter"]), ("Greeter.Greeter", ["print"]),
        ("main", ["__mx_global_init", "__mx_malloc"])]) (by cbv)
  obtain ⟨hlinked, hmodule⟩ := Module.linked_of_ofSource hsymbols hlowered
  exact ⟨symbols, program, log, hsymbols, hlowered, beq_iff_eq.mp hfacts, hlinked, hmodule {} #[]⟩

end MxStar.Machine
