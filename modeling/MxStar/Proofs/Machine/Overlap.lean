import MxStar.Proofs.Machine.Convergence
import MxStar.Proofs.Machine.LivePath
import MxStar.Proofs.Machine.ProperColoring

/-!
# Overlapping live ranges

Two registers interfere just if their live ranges overlap: some instruction writes the one while
the other is live immediately after it, and the instruction is not a move from that other register
(`Function.Overlaps`).  What is live is told by paths, not by the sets that were computed.

The walk over a block that builds the graph has the live set of the place it has come to, and that
set holds what is live along paths from there.
-/

namespace MxStar.Machine

/-- Somewhere the register `d` is written while `r` is live immediately after, and not by a move
from `r`. -/
def Function.Overlaps (f : Function) (d r : Register) : Prop :=
  ∃ p i, f.instr? p = some i ∧ d ∈ i.defs ∧ f.LiveAfter p r ∧ ∀ rd, i ≠ .mv rd r

theorem Interference.mem_clashing : r ∈ clashing i after ↔ r ∈ after ∧ ∀ rd, i ≠ .mv rd r := by
  cases i with
  | mv rd rs =>
    simp only [clashing, Std.ExtTreeSet.mem_erase, Std.compare_eq_iff_eq, ne_eq, Instr.mv.injEq,
      not_and, forall_eq', and_comm]
  | _ => simp [clashing]

theorem clashes_iff_overlaps (h : Liveness.compute f = .ok l) (hne : r ≠ d) :
    Clashes f l d r ↔ f.Overlaps d r := by
  constructor
  · rintro ⟨b, block, hb, before, i, after, hcode, hd, hr, -⟩
    obtain ⟨hlive, hmove⟩ := Interference.mem_clashing.mp hr
    refine ⟨⟨b, before.length⟩, i, ?_, hd, ?_, hmove⟩
    · rw [Function.instr?_eq hb, hcode]
      simp
    · rw [← mem_liveBefore_iff_liveAfter h hb (by simp [hcode]), hcode]
      simpa using hlive
  · rintro ⟨⟨b, n⟩, i, hi, hd, hlive, hmove⟩
    obtain ⟨block, hb, hdrop⟩ := Function.exists_drop_of_instr? hi
    rw [Function.instr?_eq hb] at hi
    have hn := (List.getElem?_eq_some_iff.mp hi).1
    refine ⟨b, block, hb, block.code.take n, i, block.code.drop (n + 1), ?_, hd, ?_, hne⟩
    · rw [← hdrop, List.take_append_drop]
    · exact Interference.mem_clashing.mpr ⟨(mem_liveBefore_iff_liveAfter h hb hn).mpr hlive, hmove⟩

/-- **The interference graph is the overlap of live ranges.**  It has a list of neighbours for
just the virtual registers in use, it is irreflexive and symmetric, and a virtual register
interferes with another register just if one of the two is written while the other is live
immediately after, other than by a move from that other register.  If terminators stand last, what
is live behind an instruction is what some path from there reads before it is written. -/
theorem Interference.interferes_build_iff_overlaps {f : Function} {l : Liveness}
    (h : Liveness.compute f = .ok l) :
    (∀ v, v ∈ (build f l).adjacency ↔ v ∈ f.inUse) ∧
      (∀ v, (build f l).interferes v (.virtual v) = false) ∧
      (∀ v w, (build f l).interferes v (.virtual w) = (build f l).interferes w (.virtual v)) ∧
      (∀ v r, r ≠ .virtual v → ((build f l).interferes v r = true ↔
        f.Overlaps (.virtual v) r ∨ f.Overlaps r (.virtual v))) ∧
      (f.TerminatorsLast → ∀ p r, f.LiveAfter p r ↔ ∃ q, f.Follows p q ∧ f.LiveAt q r) := by
  have hg := symmetric_build f l
  refine ⟨fun v => mem_adjacency_iff_mem_inUse h, hg.irrefl, fun v w => ?_, fun v r hne => ?_,
    fun hlast p r => Function.liveAfter_iff_liveAt hlast⟩
  · exact Bool.eq_iff_iff.mpr ⟨hg.symm v w, hg.symm w v⟩
  · rw [interferes_build, clashes_iff_overlaps h hne, clashes_iff_overlaps h hne.symm]

/-- A value that is copied, and two that a call comes between. -/
def ranges : Function :=
  let v (n : Nat) : Register := .virtual ⟨n⟩
  { name := "ranges"
    blocks := ⟨#[
      { id := ⟨0⟩, label := "entry"
        code := [.li (v 0) 1, .mv (v 1) (v 0), .li (v 2) 2, .call "visit" 0,
          .alu .add (v 3) (v 1) (v 2), .mv (.physical .a0) (v 3), .ret true] }]⟩
    virtuals := 4 }

/-- The two values that live across the call overlap with each other and with what the call
overwrites, and the copied one does not overlap with its copy. -/
theorem Interference.interferes_build_iff_overlaps_ranges :
    (∃ l, Liveness.compute ranges = .ok l) ∧ (ranges.Overlaps (.virtual ⟨1⟩) (.virtual ⟨2⟩) ∨
        ranges.Overlaps (.virtual ⟨2⟩) (.virtual ⟨1⟩)) ∧
      (ranges.Overlaps (.virtual ⟨1⟩) (.physical .a0) ∨
        ranges.Overlaps (.physical .a0) (.virtual ⟨1⟩)) ∧
      ¬ (ranges.Overlaps (.virtual ⟨0⟩) (.virtual ⟨1⟩) ∨
        ranges.Overlaps (.virtual ⟨1⟩) (.virtual ⟨0⟩)) := by
  have hgraph : (Liveness.compute ranges).toOption.map (fun l =>
      ((build ranges l).interferes ⟨1⟩ (.virtual ⟨2⟩), (build ranges l).interferes ⟨1⟩
        (.physical .a0),
        (build ranges l).interferes ⟨0⟩ (.virtual ⟨1⟩))) = some (true, true, false) := by
    decide +kernel
  cases hl : Liveness.compute ranges with
  | error e => simp [hl, Except.toOption] at hgraph
  | ok l =>
    obtain ⟨-, -, -, hoverlaps, -⟩ := interferes_build_iff_overlaps hl
    simp only [hl, Except.toOption, Option.map_some, Option.some.injEq, Prod.mk.injEq] at hgraph
    refine ⟨⟨l, rfl⟩, (hoverlaps _ _ (by decide)).mp hgraph.1,
      (hoverlaps _ _ (by decide)).mp hgraph.2.1, fun h => ?_⟩
    simp [(hoverlaps _ _ (by decide)).mpr h] at hgraph

end MxStar.Machine
