import MxStar.Proofs.Machine.AllocationRun

/-!
# Every assignment that passes the check

The check looks at an assignment alone, not at how it was found.  Every register
the function mentions is a vertex of the interference graph, so a checked
assignment gives each of them a place (`Function.exists_color_of_mem_inUse`), and
neighbours get different ones.  That is enough for the code with the places put
in to behave like the code before it: registers that share a place either are
not needed at the same time or were made equal by a move.
-/

namespace MxStar.Machine

variable {f : Function} {i : Instr} {access : Access}

theorem Function.exists_color_of_mem_inUse (h : f.checkColors l colors = .ok ())
    (hv : v ∈ f.inUse) : ∃ color, colors[v]? = some color := by
  have hvertex := (Interference.mem_adjacency_build_iff f l v).mpr (Or.inl hv)
  have hget := Std.ExtTreeMap.getElem?_eq_some_getElem hvertex
  have hcheck := Except.forM_eq_ok.mp h _ (Std.ExtTreeMap.mem_toList_iff_getElem?_eq_some.mpr hget)
  simp only [Function.checkRegister] at hcheck
  split at hcheck
  · simp at hcheck
  · rename_i color hcolor
    exact ⟨color, hcolor⟩

theorem mem_inUse_of_mem_operands (hblock : block ∈ f.blocks.entries.toList) (hi : i ∈ block.code)
    (h : (.virtual v, access) ∈ i.operands) : v ∈ f.inUse := by
  refine Function.mem_inUse.mpr ⟨block, hblock, i, hi, ?_⟩
  cases access with
  | use => exact Or.inl (Instr.virtual_mem_reads.mpr h)
  | define => exact Or.inr (Instr.virtual_mem_writes.mpr h)

theorem Function.exists_of_mem_operands_assign (hi : i ∈ (f.assign a).code)
    (hr : (r, access) ∈ i.operands) :
    ∃ block ∈ f.blocks.entries.toList, ∃ j ∈ block.code, ∃ q,
      (q, access) ∈ j.operands ∧ r = replaceBy a.colors q := by
  simp only [Function.code, Function.assign, Table.map, Array.toList_map, List.mem_flatMap,
    List.mem_map] at hi
  obtain ⟨-, ⟨block, hblock, rfl⟩, hi⟩ := hi
  simp only [Block.assign, List.mem_filter, List.mem_map] at hi
  obtain ⟨⟨j, hj, rfl⟩, -⟩ := hi
  rw [Instr.operands_mapRegisters, List.mem_map] at hr
  obtain ⟨⟨q, access'⟩, hq, heq⟩ := hr
  obtain ⟨rfl, rfl⟩ := Prod.mk.inj heq
  exact ⟨block, hblock, j, hj, q, hq, rfl⟩

theorem Function.physical_of_mem_operands_assign (h : f.checkColors l a.colors = .ok ())
    (hi : i ∈ (f.assign a).code) (hr : (r, access) ∈ i.operands) : ∃ p, r = .physical p := by
  obtain ⟨block, hblock, j, hj, q, hq, rfl⟩ := Function.exists_of_mem_operands_assign hi hr
  cases q with
  | physical p => exact ⟨p, rfl⟩
  | virtual v =>
    obtain ⟨color, hcolor⟩ := f.exists_color_of_mem_inUse h (mem_inUse_of_mem_operands hblock hj hq)
    exact ⟨color, by simp [replaceBy, hcolor]⟩

/-- **Every assignment that passes the check is sound**, however it was found.  The
code with the places put in names physical registers only.  Whatever these hold
at the start, whatever memory holds and whatever called functions leave behind,
it has made the same accesses to memory and the same calls after the same number
of blocks, and it has got to the same block, the same returned value or the same
call that does not come back. -/
theorem Function.view_run_assign_of_checkAssignment {f : Function} {a : Assignment} {log log' : Log}
    (hlast : f.TerminatorsLast)
    (hentry : ∀ live, Liveness.compute f = .ok live → ∀ v, .virtual v ∉ (live.block f.entry).liveIn)
    (hcolors : ∀ (v : VirtualId) (p : Physical), a.colors[v]? = some p →
      p ∈ Physical.allocationOrder)
    (h : f.checkAssignment a log = .ok () log') :
    (∀ i ∈ (f.assign a).code, ∀ r access, (r, access) ∈ i.operands → ∃ p, r = .physical p) ∧
      ∀ {World : Type} (E : Environment World) (shared total : Nat) (s s' : State (Store World)),
        SamePhysical s s' → ∀ count, ((f.assign a).run (E.backing shared total) count s').view =
            (f.run (E.backing shared total) count s).view := by
  simp only [Function.checkAssignment] at h
  obtain ⟨live, between, hlive, h⟩ := EStateM.bind_eq_ok.mp h
  have hcompute := Function.compute_of_liveness hlive
  obtain ⟨hcheck, -⟩ := EStateM.ofExcept_eq_ok.mp h
  have hproper : Proper f live a.colors := by
    refine proper_of_checkColors hcheck fun v p hp => ?_
    simpa [Physical.isAllocatable] using hcolors v p hp
  refine ⟨fun i hi r access hr => Function.physical_of_mem_operands_assign hcheck hi hr, ?_⟩
  intro World E shared total s s' hsame count
  have hsolution := liveSolution_of_compute hcompute
  have hreads := E.readsArguments_backing shared total
  -- contents of the virtual registers that the places of the final code tell
  obtain ⟨t, ht, hassign⟩ := Function.exists_run_assign hsolution hproper hlast hreads s'
  rw [← hassign count]
  exact Function.view_run_eq hsolution (hentry live hcompute) hlast hreads count
    (ht.trans hsame.symm)

/-- A loop around a call that counts down in one of two registers joined by a move. -/
def countdown : Function :=
  let v (n : Nat) : Register := .virtual ⟨n⟩
  { name := "countdown"
    blocks := ⟨#[
      { id := ⟨0⟩, label := "entry", code := [.li (v 0) 9, .mv (v 1) (v 0), .jump ⟨1⟩] },
      { id := ⟨1⟩, label := "body"
        code := [.mv (.physical .a0) (v 1), .call "visit" 1, .aluImm .addi (v 1) (v 1) (-1),
          .branch (v 1) ⟨1⟩ ⟨2⟩] },
      { id := ⟨2⟩, label := "exit", code := [.mv (.physical .a0) (v 1), .ret true] }]⟩
    exit := ⟨2⟩
    virtuals := 2 }

/-- Both registers of the loop in one place that calls keep. -/
def countdownPlaces : Assignment where
  colors := (∅ : Colors).insert ⟨0⟩ .s0 |>.insert ⟨1⟩ .s0

/-- The two registers that a move joins may share a place, and the loop runs as before. -/
theorem view_run_assign_countdown :
    (∃ log', countdown.checkAssignment countdownPlaces #[] = .ok () log') ∧
      (countdown.assign countdownPlaces).code.length = 8 ∧
      ∀ (E : Environment Unit) (s s' : State (Store Unit)), SamePhysical s s' → ∀ count,
        ((countdown.assign countdownPlaces).run (E.backing 0 0) count s').view =
          (countdown.run (E.backing 0 0) count s).view := by
  have hcheck : (match countdown.checkAssignment countdownPlaces #[] with
      | .ok () _ => true
      | .error _ _ => false) = true := by decide +kernel
  have hlive : (Liveness.compute countdown).toOption.map
      (fun live => (live.block ⟨0⟩).liveIn.toList) = some [] := by decide +kernel
  split at hcheck
  · rename_i log' h
    refine ⟨⟨log', h⟩, by decide +kernel, fun E => ?_⟩
    refine (Function.view_run_assign_of_checkAssignment (by decide) ?_ ?_ h).2 E 0 0
    · intro live hcompute v hv
      rw [hcompute] at hlive
      have hnone : (live.block ⟨0⟩).liveIn.toList = [] := Option.some.inj hlive
      have hmem : .virtual v ∈ (live.block ⟨0⟩).liveIn.toList := Std.ExtTreeSet.mem_toList.mpr hv
      simp [hnone] at hmem
    · intro v p hp
      simp only [countdownPlaces, Std.ExtTreeMap.getElem?_insert] at hp
      split at hp
      · cases hp
        decide
      · split at hp
        · cases hp
          decide
        · simp at hp
  · simp at hcheck

end MxStar.Machine
