import MxStar.Proofs.Machine.AllocatedFrame
import MxStar.Proofs.Machine.CheckedRun

/-!
# The colours that allocation ends with

The last round of an allocation colours the graph of the function it leaves, without a spill.  So
the colours are given to just the registers in use, they come from the palette, neighbours differ,
and the check, which computes liveness and the graph once more, finds the same ones.  The code
with the colours put in names no virtual register, and no instruction of it writes a reserved
register that it did not write before (`Function.isColored_of_allocate`).
-/

namespace MxStar.Machine

theorem Interference.mem_adjacency_of_mem_color {g : Interference} {info : SpillInfo}
    {palette : List Physical} {v : VirtualId} (h : v ∈ (g.color info palette).colors) :
    v ∈ g.adjacency :=
  (mem_registers v).mp (mem_of_mem_simplify (mem_of_colorOrder (Or.inl h)))

theorem Instr.physical_mem_writes_of_mapRegisters {i : Instr} {rename : Register → Register}
    {p : Physical} (h : ∀ r, rename r = .physical p → r = .physical p)
    (hp : .physical p ∈ (i.mapRegisters rename).writes) : .physical p ∈ i.writes := by
  cases i with
  | li rd _ | la rd _ | mv rd _ | alu _ rd _ _ | aluImm _ rd _ _ | slotAddress rd _
  | load _ rd _ _ =>
    exact List.mem_singleton.mpr (h rd (List.mem_singleton.mp hp).symm).symm
  | _ => exact hp

theorem Block.exists_kept_assign (colors : Colors) (block : Block) :
    ∃ kept, List.Sublist kept block.code ∧
      (block.assign colors).code = kept.map (·.mapRegisters (replaceBy colors)) :=
  ⟨_, List.filter_sublist, List.filter_map⟩

/-- The registers that no value is ever assigned to. -/
def Physical.reserved : List Physical :=
  [.zero, .ra, .sp, .gp, .tp, .t6]

theorem replaceBy_eq_reserved
    (hcolors : ∀ (v : VirtualId) (p : Physical), colors[v]? = some p → p ∈ Physical.allocationOrder)
    (hp : p ∈ Physical.reserved) (h : replaceBy colors r = .physical p) : r = .physical p := by
  cases r with
  | physical q => exact h
  | virtual v =>
    simp only [replaceBy] at h
    split at h
    · rename_i q hq
      obtain rfl := Register.physical.inj h
      have hall : ∀ p ∈ Physical.reserved, p ∉ Physical.allocationOrder := by decide
      exact absurd (hcolors v _ hq) (hall _ hp)
    · simp at h

theorem Function.mentions_assign_eq_nil {f : Function} {l : Liveness} {a : Assignment}
    (h : f.checkColors l a.colors = .ok ()) : (f.assign a).mentions = [] := by
  refine List.eq_nil_iff_forall_not_mem.mpr fun v hv => ?_
  have hinUse : v ∈ (f.assign a).inUse := by simpa [Function.inUse] using hv
  obtain ⟨block, hblock, i, hi, hnames⟩ := Function.mem_inUse.mp hinUse
  have hcode : i ∈ (f.assign a).code := List.mem_flatMap.mpr ⟨block, hblock, hi⟩
  obtain ⟨access, hoperand⟩ : ∃ access, (Register.virtual v, access) ∈ i.operands := by
    rcases hnames with hreads | hwrites
    · exact ⟨_, Instr.virtual_mem_reads.mp hreads⟩
    · exact ⟨_, Instr.virtual_mem_writes.mp hwrites⟩
  obtain ⟨p, hp⟩ := Function.physical_of_mem_operands_assign h hcode hoperand
  simp at hp

/-- **Every allocation that succeeds is a proper colouring**, and the check accepts it.  The
colours are given to just the registers in use and are among the first of those that are handed
out, as many as the budget allows, but at least three.  No register shares its colour with a
virtual register that it interferes with, nor has the colour of a physical one.  With the colours
put in, no virtual register is mentioned, and the code of each block is that of some of its
instructions before, none of which has come to write a reserved register. -/
theorem Function.isColored_of_allocate {f : Function} {l : Liveness} {options : Options}
    {log log' : Log} {allocation : Allocation} {a : Assignment}
    (h : f.allocate l options log = .ok allocation log') (houtcome : allocation.outcome = .ok a) :
    let g := allocation.function
    ∃ live, Liveness.compute g = .ok live ∧ (∀ v, v ∈ a.colors ↔ v ∈ g.inUse) ∧
      (∀ (v : VirtualId) (p : Physical), a.colors[v]? = some p →
        p ∈ Physical.allocationOrder.take (max 3 (min (options.budget.getD 26) 26))) ∧
      (∀ (v w : VirtualId) (p : Physical),
        (Interference.build g live).interferes v (.virtual w) = true →
          a.colors[v]? = some p → a.colors[w]? ≠ some p) ∧
      (∀ (v : VirtualId) (p : Physical),
        (Interference.build g live).interferes v (.physical p) = true → a.colors[v]? ≠ some p) ∧
      (∀ log, ∃ log', g.checkAssignment a log = .ok () log') ∧
      (g.assign a).mentions = [] ∧
      ∀ b block', (g.assign a).blocks.get? b = some block' →
        ∃ block kept, g.blocks.get? b = some block ∧ List.Sublist kept block.code ∧
          block'.code = kept.map (·.mapRegisters (replaceBy a.colors)) ∧
          ∀ i ∈ kept, ∀ p ∈ Physical.reserved,
            .physical p ∈ (i.mapRegisters (replaceBy a.colors)).writes →
              .physical p ∈ i.writes := by
  intro g
  obtain ⟨-, -, live, hlive, hcolors, huncolored⟩ := spills_of_allocateRounds h houtcome
  have hcheck : g.checkColors live a.colors = .ok () := by
    rw [hcolors]
    exact Function.checkColors_color huncolored
  have havoids : (Interference.build g live).Avoids a.colors := by
    rw [hcolors]
    exact Interference.avoids_color (Interference.symmetric_build g live)
  have hpalette : ∀ (v : VirtualId) (p : Physical), a.colors[v]? = some p →
      p ∈ palette options.budget := fun v p hp => Interference.mem_palette_of_color (hcolors ▸ hp)
  refine ⟨live, hlive, fun v => ?_, hpalette, fun v w p hvw hv => havoids v p hv (.virtual w) hvw,
    fun v p hvp hv => havoids v p hv (.physical p) hvp rfl, fun log => ?_,
    Function.mentions_assign_eq_nil hcheck, fun b block' hb => ?_⟩
  · rw [← mem_adjacency_iff_mem_inUse hlive, hcolors]
    refine ⟨Interference.mem_adjacency_of_mem_color, fun hv => ?_⟩
    exact (Interference.mem_color hv).resolve_right (by simp [huncolored])
  · exact ⟨_, EStateM.bind_eq_ok.mpr
      ⟨live, _, Function.liveness_eq_ok hlive log, EStateM.ofExcept_eq_ok.mpr ⟨hcheck, rfl⟩⟩⟩
  · obtain ⟨block, hblock, rfl⟩ : ∃ block, g.blocks.get? b = some block ∧
        block.assign a.colors = block' := by
      simpa [Function.assign] using hb
    obtain ⟨kept, hkept, hcode⟩ := block.exists_kept_assign a.colors
    refine ⟨block, kept, hblock, hkept, hcode, fun i _ p hp => ?_⟩
    refine Instr.physical_mem_writes_of_mapRegisters fun r => replaceBy_eq_reserved ?_ hp
    exact fun v q hq => (palette_sublist options.budget).subset (hpalette v q hq)

/-- With three registers the four values of the function that keeps them alive do not fit, and
after the spill all registers in use have colours that the check accepts. -/
theorem Function.isColored_of_allocate_crowded :
    ∃ allocation a log', (crowded 7).allocate {} { budget := some 3 } #[] = .ok allocation log' ∧
      allocation.outcome = .ok a ∧ a.rounds = 4 ∧
      (∀ v, v ∈ a.colors ↔ v ∈ allocation.function.inUse) ∧
      (∀ log, ∃ log', allocation.function.checkAssignment a log = .ok () log') ∧
      (allocation.function.assign a).mentions = [] := by
  have hrounds : (match (crowded 7).allocate {} { budget := some 3 } #[] with
      | .ok allocation _ => allocation.outcome.toOption.map Assignment.rounds
      | _ => none) = some 4 := by decide +kernel
  split at hrounds
  · rename_i allocation log' h
    cases houtcome : allocation.outcome with
    | error e => simp [houtcome, Except.toOption] at hrounds
    | ok a =>
      obtain ⟨live, -, hcolors, -, -, -, hcheck, hmentions, -⟩ := isColored_of_allocate h houtcome
      refine ⟨allocation, a, log', h, houtcome, ?_, hcolors, hcheck, hmentions⟩
      simpa [houtcome, Except.toOption] using hrounds
  · simp at hrounds

end MxStar.Machine
