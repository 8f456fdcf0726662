import MxStar.Proofs.Flow.LoweredUnit

/-!
# Truth values change their form only explicitly

Every function of a lowered unit mentions only what exists, and if the source is
well-typed, truth values cross between condition form and storage form only where an
instruction says so.
-/

namespace MxStar.Flow

theorem Program.holds_of_ofSource (h : Program.ofSource p symbols log = .ok program log')
    (hf : f ∈ program.allFunctions) :
    Checking.Holds ⟨symbols, program.globals, f, p.isWellTyped symbols = true,
      ∀ ty ∈ p.variableTypes, ty ≠ .void⟩ f :=
  (Program.finishes_of_ofSource h f hf).holds

/-- In a well-typed unit truth values cross between their forms only explicitly: branches
take the condition form, memory, calls and returns the storage form, and every access to
memory has the size of what it accesses. -/
theorem Program.isExplicit_of_ofSource {p : Source.Program} {symbols : Source.Symbols}
    {log log' : Log}
    {program : Program} (h : Program.ofSource p symbols log = .ok program log')
    (htyped : p.isWellTyped symbols = true) :
    ∀ f ∈ program.allFunctions, ∀ id b, f.blocks.get? id = some b →
      (∀ i ∈ b.instrs, i.IsExplicit program.globals f) ∧ ∀ t ∈ b.terminator, t.IsExplicit f := by
  intro f hf id b hb
  have hholds := Program.holds_of_ofSource h hf
  exact ⟨fun i hi => (hholds.instrs id b hb i hi).explicit htyped,
    fun t ht => (hholds.terminators id b hb t ht).explicit htyped⟩

/-- A class with a truth value that a method changes, and a global that is computed. -/
def latch : Source.Program :=
  let bool : Source.Ty := { base := .bool }
  let string : Source.Ty := { base := .string }
  let text (value : String) : Source.Expr := .literal string (.text value)
  let isSet : Source.Expr := .ident bool "isSet"
  [ .globals ⟨bool, [⟨"ordered", some (.binary bool .lessThan (text "a") (text "b"))⟩]⟩, .object {
      name := "Latch"
      members := [⟨bool, [⟨"isSet", none⟩]⟩]
      constructor := some [.evaluate (.assign bool isSet (.ident bool "ordered"))]
      methods := [{
        name := "toggle"
        returnType := bool
        parameters := [⟨"force", bool⟩]
        body := [
          .ifElse (.binary bool .logicalOr (.ident bool "force") (.unary bool .logicalNot isSet))
            [.giveBack (some (.assign bool isSet (.unary bool .logicalNot isSet)))] [],
          .giveBack (some (.binary bool .equals isSet (.ident bool "force")))] }] } ]

/-- All three functions of the class and its global are explicit. -/
theorem Program.isExplicit_of_ofSource_latch :
    ∃ symbols program log, Source.Symbols.collect latch = .ok symbols ∧
      latch.isWellTyped symbols = true ∧ Program.ofSource latch symbols #[] = .ok program log ∧
      program.allFunctions.length = 3 ∧
      ∀ f ∈ program.allFunctions, ∀ id b, f.blocks.get? id = some b →
        (∀ i ∈ b.instrs, i.IsExplicit program.globals f) ∧ ∀ t ∈ b.terminator, t.IsExplicit f := by
  obtain ⟨symbols, program, log, hsymbols, hlowered, hfacts⟩ :=
    Program.exists_ofSource latch (fun symbols program =>
      latch.isWellTyped symbols && program.allFunctions.length == 3) (by cbv)
  obtain ⟨htyped, hprogram⟩ := Bool.and_eq_true_iff.mp hfacts
  exact ⟨symbols, program, log, hsymbols, htyped, hlowered, beq_iff_eq.mp hprogram,
    Program.isExplicit_of_ofSource hlowered htyped⟩

end MxStar.Flow
