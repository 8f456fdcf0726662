import MxStar.Proofs.Flow.LoweredFunction

/-!
# Lowering keeps the meaning of the scalar language

A function of the scalar language keeps its meaning however large the unit is that it
stands in: the other functions and the classes of the unit need not belong to the
language.  What a body is built from is read off the unit first; the rest was shown for
each body on its own.
-/

namespace MxStar.Flow

open Source (Symbols Definition FunctionDef Expr)

theorem knowsGlobals_of_placeGlobals {World : Type} {X : Setting World} {p : Source.Program}
    {placed : Placed} (h : placeGlobals p = .ok placed)
    (hglobals : X.program.globals = placed.globals) : X.KnowsGlobals p.globalTyping := by
  intro name
  rw [Program.global?, hglobals]
  exact find?_placeGlobals h name

theorem exists_stages_of_ofSource (h : Program.ofSource p symbols log = .ok program log')
    (hf : .function f ∈ p) :
    ∃ g ∈ program.functions, Nonempty (Stages (program.context symbols) f
      (program.initializer.isSome && f.name == Linkage.entryPoint) g) := by
  obtain ⟨unit, hunit⟩ := Program.ofSource_eq_ok h
  obtain ⟨placed, functions, -, -, -, hfuns, -, hlow⟩ := lowerUnit_eq_ok hunit
  obtain ⟨fs, hfs, unit1, unit2, hdef⟩ := hlow.flip.exists_of_mem_right hf
  obtain ⟨g, unit3, hfun, hpure⟩ := EStateM.bind_eq_ok.mp hdef
  obtain ⟨rfl, -⟩ := EStateM.pure_eq_ok.mp hpure
  obtain ⟨_, unit4, -, hbody⟩ := EStateM.bind_eq_ok.mp hfun
  obtain ⟨s, s', hs, hscopes, hbuild⟩ := runBody_eq_ok hbody
  refine ⟨g, ?_, exists_stages hs hscopes hbuild⟩
  rw [hfuns]
  exact List.mem_flatten.mpr ⟨_, hfs, List.mem_singleton_self g⟩

/-- A function of the scalar language runs like its source says. -/
theorem Program.runsLike_of_ofSource {World : Type} {p : Source.Program} {symbols : Symbols}
    {log log' : Log} {program : Program} (h : Program.ofSource p symbols log = .ok program log')
    {f : FunctionDef} (hf : .function f ∈ p) (hscalar : f.isScalar symbols p.globalTyping = true) :
    ∃ g ∈ program.functions, g.name = f.name ∧
      ∀ (E : Environment World) (arguments : List Word) (memory : Memory) (world : World)
        (fuel : Nat), E.Shelters symbols program g → E.Truthful program memory →
        List.Forall₂ (fun (p : Source.Parameter) w => p.ty.Admits w) f.parameters arguments →
          g.RunsLike E program arguments memory world fuel (f.eval E p.globalTyping
              (program.initializer.isSome && f.name == Linkage.entryPoint)
              arguments memory world fuel) := by
  obtain ⟨unit, hunit⟩ := Program.ofSource_eq_ok h
  obtain ⟨placed, _, hplaced, hglobals, -⟩ := lowerUnit_eq_ok hunit
  obtain ⟨g, hg, ⟨S⟩⟩ := exists_stages_of_ofSource h hf
  obtain ⟨A, hsound⟩ := Program.sound_of_ofSource h g (List.mem_append_right _ hg)
  refine ⟨g, hg, S.head.name.trans S.name, fun E arguments memory world fuel => ?_⟩
  intro hshelters htruth hadmits
  exact S.runsLike rfl rfl hsound.draft.given_nodup hscalar
    (knowsGlobals_of_placeGlobals hplaced hglobals) hshelters hadmits htruth world fuel

/-! ## An example -/

/-- Surroundings in which the stack cells stand in a row and calls do nothing. -/
def Environment.quiet : Environment Unit where
  global _ := 0
  string _ := 0
  cell n := BitVec.ofNat 32 (8 * n)
  call world _ _ memory := some (world, memory, 0)

theorem Environment.exists_of_covers_quiet {width : Machine.Width} (hn : n < 1000)
    (h : width.Covers (Environment.quiet.cell n) b) : 8 * n ≤ b.toNat ∧ b.toNat < 8 * n + 8 := by
  have hcell : (Environment.quiet.cell n).toNat = 8 * n := by
    simp only [Environment.quiet, BitVec.toNat_ofNat]
    omega
  cases width with
  | byte =>
    obtain rfl : b = _ := h
    omega
  | word =>
    rcases h with rfl | rfl | rfl | rfl <;>
      · simp only [BitVec.toNat_add, BitVec.reduceToNat, hcell]
        omega

theorem Environment.shelters_quiet (hp : p.globals = []) (hf : f.cells.size < 1000)
    (symbols : Symbols) : Environment.quiet.Shelters symbols p f where
  cells := by
    intro n m c d hc hd hne b hb hb'
    have hn := (Array.getElem?_eq_some_iff.mp hc).1
    have hm := (Array.getElem?_eq_some_iff.mp hd).1
    have hnb := exists_of_covers_quiet (by omega) hb
    have hmb := exists_of_covers_quiet (by omega) hb'
    omega
  globals := by simp [Program.global?, hp]
  apart := by simp [Program.global?, hp]
  kept := by
    intro world function arguments m world' m' result h b _
    cases h
    rfl
  unseen := by
    intro world function arguments m1 m2 world' m1' result hm h
    cases h
    exact ⟨m2, rfl, hm⟩
  results := by
    intro world function arguments m world' m' result signature h _
    cases h
    exact fun _ => .inl rfl
  truths := by
    intro world function arguments m world' m' result h _ name g hg
    simp [Program.global?, hp] at hg

/-- Adds up squares, those of odd numbers only if it is told to, and prints the sum. -/
def tally : FunctionDef :=
  let int : Source.Ty := { base := .int }
  let bool : Source.Ty := { base := .bool }
  let number (n : Nat) : Expr := .literal int (.integer (BitVec.ofNat 32 n))
  let i : Expr := .ident int "i"
  let n : Expr := .ident int "n"
  let total : Expr := .ident int "total"
  let isEven : Expr := .binary bool .equals (.binary int .modulus i (number 2)) (number 0)
  { name := "tally"
    returnType := int
    parameters := [⟨"n", int⟩, ⟨"onlyOdd", bool⟩]
    body := [
      .declare ⟨int, [⟨"total", some (number 0)⟩]⟩,
      .forLoop (some (.declare ⟨int, [⟨"i", some (number 0)⟩]⟩)) (some (.binary bool .lessThan i n))
        (some (.unary int .preIncrement i)) [
          .ifElse (.binary bool .logicalAnd (.ident bool "onlyOdd") isEven) [.continueLoop] [],
          .declare ⟨int, [⟨"n", some (.binary int .multiply i i)⟩]⟩,
          .evaluate (.assign int total (.binary int .add total n))],
      .evaluate (.call { base := .void } "printInt" [total]),
      .giveBack (some total)] }

def tallyGivesTen : Bool :=
  match tally.eval Environment.quiet
      (Source.Program.globalTyping [.function tally]) false [4, 1] (fun _ => 0) () 5 with
  | .done value st => value == some 10 && st.calls == [("printInt", [10])]
  | _ => false

/-- The sum of the odd squares below four is ten, and it is printed. -/
theorem Program.runsLike_of_ofSource_tally :
    tally.isScalar {} (Source.Program.globalTyping [.function tally]) = true ∧
      ∃ program log, Program.ofSource [.function tally] {} #[] = .ok program log ∧
        ∃ g ∈ program.functions, g.name = "tally" ∧ Environment.quiet.Shelters {} program g ∧
          ∃ n s, (∀ count ≥ n, g.run Environment.quiet program [4, 1] (fun _ => 0) () count =
            .returned (some 10) s) ∧ s.calls = [("printInt", [10])] := by
  have hscalar : tally.isScalar {} (Source.Program.globalTyping [.function tally]) = true := by cbv
  have hfacts : (Program.ofSource [.function tally] {} #[]).passes (fun program =>
      program.globals.isEmpty && !program.initializer.isSome &&
        program.functions.all fun f => decide (f.cells.size < 1000)) = true := by cbv
  have hvalue : tallyGivesTen = true := by cbv
  obtain ⟨program, log, hprogram, hfacts⟩ := EStateM.exists_of_passes hfacts
  simp only [Bool.and_eq_true, List.all_eq_true, List.isEmpty_iff, Bool.not_eq_true',
    decide_eq_true_eq] at hfacts
  obtain ⟨⟨hglobals, hinitializer⟩, hcells⟩ := hfacts
  obtain ⟨g, hg, hname, hruns⟩ := Program.runsLike_of_ofSource hprogram (f := tally)
    (List.mem_singleton_self _) hscalar
  have hshelters := Environment.shelters_quiet hglobals (hcells g hg) {}
  have hruns := hruns Environment.quiet [4, 1] (fun _ => 0) () 5 hshelters
    (by simp [Environment.Truthful, Program.global?, hglobals])
    (.cons (by simp [Source.Ty.Admits, Source.Ty.bool]) (.cons (fun _ => .inr rfl) .nil))
  rw [hinitializer, Bool.false_and] at hruns
  rw [tallyGivesTen] at hvalue
  split at hvalue
  · rename_i value st heval
    rw [heval] at hruns
    simp only [Bool.and_eq_true, beq_iff_eq] at hvalue
    obtain ⟨n, s, hreturned, hseen⟩ := hruns
    refine ⟨hscalar, program, log, hprogram, g, hg, hname, hshelters, n, s, ?_, ?_⟩
    · rw [← hvalue.1]
      exact hreturned
    · rw [hseen.calls, hvalue.2]
  · simp at hvalue

end MxStar.Flow
