import MxStar.Proofs.Machine.Convergence
import MxStar.Proofs.Machine.ProperColoring

/-!
# What allocation leaves

Allocation ends with places for all registers or with used-up rounds, never with an
assignment that its check refuses (`Function.exists_allocateRegisters`).

Spilling adds objects to the frame together with the code that uses them, and an
assignment puts registers in place that are not reserved.  So allocated code still uses
its frame as it is meant to be used and goes to blocks that exist (`Function.Orderly`).
-/

namespace MxStar.Machine

/-! ## The outcome -/

theorem Function.liveness_eq_ok (h : Liveness.compute f = .ok l) (log : Log) :
    f.liveness log = .ok l (log.push (.livenessConverged f.name l.visits)) := by
  simp only [Function.liveness, h]
  rfl

theorem exists_allocateRounds_of_compute (colors : List Physical) (failure : Error)
    (left round : Nat) (h : ∃ live, Liveness.compute f = .ok live) (l : Liveness) (log : Log) :
    ∃ allocation log', allocateRounds colors failure left round f l log = .ok allocation log' ∧
      (allocation.outcome = .error failure ∨ ∃ a live, allocation.outcome = .ok a ∧
        Liveness.compute allocation.function = .ok live ∧
        allocation.function.checkColors live a.colors = .ok ()) := by
  induction left generalizing round f l log with
  | zero => exact ⟨_, _, rfl, .inl rfl⟩
  | succ left ih =>
    obtain ⟨live, hlive⟩ := h
    simp only [allocateRounds, bind, EStateM.bind, Function.liveness_eq_ok hlive]
    by_cases huncolored : ((Interference.build f live).color f.spillInfo colors).uncolored = []
    · rw [if_pos (by simp [huncolored])]
      exact ⟨_, _, rfl, .inr ⟨_, live, rfl, hlive, Function.checkColors_color huncolored⟩⟩
    · rw [if_neg (by simpa using huncolored)]
      exact ih (round + 1) (Function.exists_compute_spill ⟨live, hlive⟩) live _

/-- **Allocation fails in one way only**: the rounds are used up. -/
theorem Function.exists_allocateRegisters (h : ∃ live, Liveness.compute f = .ok live) (l : Liveness)
    (options : Options) (log : Log) :
    ∃ g l' failure log', f.allocateRegisters l options log = .ok (g, l', failure) log' ∧
      (failure = none ∨ failure = some (.allocationDidNotConverge f.name options.rounds)) := by
  obtain ⟨allocation, log1, hrounds, hout⟩ := exists_allocateRounds_of_compute
    (palette options.budget) (.allocationDidNotConverge f.name options.rounds) options.rounds 1 h
    l log
  have halloc : f.allocate l options log = .ok allocation log1 := hrounds
  simp only [allocateRegisters, bind, EStateM.bind, halloc]
  rcases hout with hout | ⟨a, live, hout, hlive, hcheck⟩
  · rw [hout]
    exact ⟨_, _, _, _, rfl, .inr rfl⟩
  · simp only [hout, EStateM.bind, liveness_eq_ok hlive, hcheck]
    exact ⟨_, _, _, _, rfl, .inl rfl⟩

/-! ## The code -/

section

variable {u : FrameUse} {slots : Nat} {suits : SlotId → Width → Prop} (hslots : u.slots ≤ slots)
  (hsuits : ∀ slot width, u.suits slot width → suits slot width)
include hslots hsuits

theorem Offset.Within.mono {base : Register} {access : Access} {width : Width} {offset : Offset}
    (h : offset.Within u base access width) :
    offset.Within { u with slots, suits } base access width := by
  cases offset with
  | slot id => exact ⟨h.1, h.2.1.trans_le hslots, hsuits id width h.2.2⟩
  | _ => exact h

theorem Instr.Framed.mono {i : Instr} (h : i.Framed u) : i.Framed { u with slots, suits } := by
  cases i with
  | slotAddress rd slot => exact ⟨h.1, h.2.trans_le hslots⟩
  | load width rd base offset => exact ⟨h.1, h.2.mono hslots hsuits⟩
  | store width rs base offset => exact Offset.Within.mono hslots hsuits h
  | _ => exact h

end

theorem Instr.Framed.mapRegisters {u : FrameUse} {i : Instr} (h : i.Framed u)
    {rename : Register → Register}
    (htracked : ∀ r, r.isTracked = true → (rename r).isTracked = true)
    (hsp : rename .sp = .sp) : (i.mapRegisters rename).Framed u := by
  have hoffset : ∀ {base : Register} {access : Access} {width : Width} {offset : Offset},
      offset.Within u base access width → offset.Within u (rename base) access width := by
    intro base access width offset hwithin
    cases offset with
    | immediate value => trivial
    | slot id => exact ⟨hwithin.1 ▸ hsp, hwithin.2⟩
    | incoming n => exact ⟨hwithin.1 ▸ hsp, hwithin.2⟩
    | outgoing n => exact ⟨hwithin.1 ▸ hsp, hwithin.2⟩
  cases i with
  | li rd value | la rd symbol | mv rd rs | alu op rd rs1 rs2 => exact htracked rd h
  | aluImm op rd rs1 value | slotAddress rd slot => exact ⟨htracked rd h.1, h.2⟩
  | load width rd base offset => exact ⟨htracked rd h.1, hoffset h.2⟩
  | store width rs base offset => exact hoffset h
  | _ => exact h

/-- The code of a function uses its frame as it is meant to be used and goes to blocks
that exist.  If `sized`, it accesses the objects of the frame in their sizes. -/
structure Function.Orderly (incoming : Nat) (f : Function) (sized : Prop := False) : Prop where
  framed : CodeFramed (f.use incoming sized) f.code
  targets : ∀ i ∈ f.code, ∀ target ∈ i.targets, target.val < f.blocks.size

namespace Function.Orderly

variable {incoming : Nat} {f g : Function} {sized : Prop}

theorem of_ofFlow (h : Function.ofFlow program source options = .ok f)
    (hsuits : sized → ∀ id b, source.blocks.get? id = some b → ∀ i ∈ b.instrs.toList,
      Selector.Suits ⟨program, source, options⟩ (f.Suits True) i) :
    f.Orderly (source.parameters.length - Physical.arguments.length) sized where
  framed := codeFramed_ofFlow h fun id b hb i hi r slot ty hslot =>
    ⟨fun d hd hty hsized => ((hsuits hsized id b hb i hi r slot ty hslot).1 d hd hty) trivial,
      fun value hi' hty hsized =>
        ((hsuits hsized id b hb i hi r slot ty hslot).2 value hi' hty) trivial⟩
  targets := fun i hi => ((modest_ofFlow h).1 i hi).targets

theorem outgoing_allocateSlots (frame : Frame) (registers : List VirtualId) :
    (allocateSlots frame registers).1.outgoing = frame.outgoing := by
  induction registers using List.reverseRecOn with
  | nil => rfl
  | append_singleton registers v ih => rwa [allocateSlots_concat]

theorem objects_allocateSlots (frame : Frame) (registers : List VirtualId) :
    (∀ slot object, frame.objects.get? slot = some object →
      (allocateSlots frame registers).1.objects.get? slot = some object) ∧
    ∀ (v : VirtualId) (slot : SlotId), (allocateSlots frame registers).2[v]? = some slot →
      (allocateSlots frame registers).1.objects.get? slot = some ⟨wordSize, wordSize⟩ := by
  induction registers using List.reverseRecOn with
  | nil => exact ⟨fun _ _ h => h, by simp [allocateSlots]⟩
  | append_singleton registers v ih =>
    obtain ⟨hkeeps, hwords⟩ := ih
    rw [allocateSlots_concat]
    have hpush : ∀ slot object, (allocateSlots frame registers).1.objects.get? slot = some object →
        ((allocateSlots frame registers).1.allocate wordSize wordSize).2.objects.get? slot =
          some object := fun slot object h => Table.get?_push_of_get? h _
    refine ⟨fun slot object h => hpush slot object (hkeeps slot object h), fun w slot hw => ?_⟩
    rw [Std.ExtTreeMap.getElem?_insert] at hw
    split at hw
    · cases hw
      simp [Frame.allocate, Table.get?_push, wordSize]
    · exact hpush slot _ (hwords w slot hw)

theorem spill (h : f.Orderly incoming sized) (registers : List VirtualId) :
    (f.spill registers).Orderly incoming sized := by
  obtain ⟨hsize, hslots⟩ := allocateSlots_spec f.frame registers
  have huse : (f.spill registers).use incoming sized = { f.use incoming sized with
        slots := (allocateSlots f.frame registers).1.objects.size
        suits := (f.spill registers).Suits sized } := by
    simp only [Function.use, Function.spill, outgoing_allocateSlots]
  obtain ⟨hkeeps, hword⟩ := objects_allocateSlots f.frame registers
  have hsuits : ∀ slot width, f.Suits sized slot width →
      (f.spill registers).Suits sized slot width := by
    intro slot width h hsized
    obtain ⟨object, hobject, hwidth⟩ := h hsized
    exact ⟨object, hkeeps slot object hobject, hwidth⟩
  have hcode : ∀ j ∈ (f.spill registers).code, ∃ i ∈ f.code, ∃ next,
      j ∈ i.spill (allocateSlots f.frame registers).2 next := by
    intro j hj
    obtain ⟨block', hblock', hj⟩ := List.mem_flatMap.mp hj
    obtain ⟨block, hblock, start, -, -, hcode⟩ := exists_of_mem_spill hblock'
    rw [hcode] at hj
    obtain ⟨i, hi, next, -, -, hj⟩ := exists_of_mem_spillCode hj
    exact ⟨i, List.mem_flatMap.mpr ⟨block, hblock, hi⟩, next, hj⟩
  -- a load or store of a spilled register, with the temporary that stands for it
  have htemporary : ∀ {temporaries : List (VirtualId × VirtualId)} {list : List VirtualId}
      {p : Register × SlotId},
      p ∈ slotTemporaries (allocateSlots f.frame registers).2 temporaries list →
      p.1.isTracked = true ∧ p.2.val < (allocateSlots f.frame registers).1.objects.size ∧
        (f.spill registers).Suits sized p.2 .word := by
    intro temporaries list p hp
    obtain ⟨v, -, hslot, hr⟩ := mem_slotTemporaries.mp hp
    refine ⟨hr ▸ rfl, hslots.lt_upper v _ hslot, fun _ => ⟨_, hword v _ hslot, ?_⟩⟩
    simp [wordSize]
  constructor
  · intro j hj
    obtain ⟨i, hi, next, hj⟩ := hcode j hj
    rw [huse]
    simp only [Instr.spill, List.mem_append, List.mem_map, List.mem_singleton] at hj
    rcases hj with (⟨p, hp, rfl⟩ | rfl) | ⟨p, hp, rfl⟩
    · exact ⟨(htemporary hp).1, rfl, (htemporary hp).2⟩
    · refine ((h.framed i hi).mono hsize hsuits).mapRegisters (fun r hr => ?_) rfl
      cases r with
      | physical q => exact hr
      | virtual v => rfl
    · exact ⟨rfl, (htemporary hp).2⟩
  · intro j hj target htarget
    obtain ⟨i, hi, next, hj⟩ := hcode j hj
    rw [size_blocks_spill]
    simp only [Instr.spill, List.mem_append, List.mem_map, List.mem_singleton] at hj
    rcases hj with (⟨p, -, rfl⟩ | rfl) | ⟨p, -, rfl⟩
    · simp [Instr.targets] at htarget
    · rw [Instr.targets_mapRegisters] at htarget
      exact h.targets i hi target htarget
    · simp [Instr.targets] at htarget

theorem of_spills (h : f.Orderly incoming sized) (hspills : Spills f g) :
    g.Orderly incoming sized := by
  induction hspills with
  | refl f => exact h
  | step registers _ ih => exact ih (h.spill registers)

theorem assign (h : f.Orderly incoming) {a : Assignment}
    (hcolors : ∀ (v : VirtualId) (p : Physical), a.colors[v]? = some p → p.isAllocatable = true) :
    (f.assign a).Orderly incoming := by
  have hcode : ∀ j ∈ (f.assign a).code, ∃ i ∈ f.code, j = i.mapRegisters (replaceBy a.colors) := by
    intro j hj
    obtain ⟨block', hblock', hj⟩ := List.mem_flatMap.mp hj
    obtain ⟨block, hblock, rfl⟩ : ∃ block ∈ f.blocks.entries.toList,
        block.assign a.colors = block' := by
      simpa [Function.assign, Table.map] using hblock'
    obtain ⟨i, hi, rfl⟩ := List.mem_map.mp (List.mem_filter.mp hj).1
    exact ⟨i, List.mem_flatMap.mpr ⟨block, hblock, hi⟩, rfl⟩
  have hsize : (f.assign a).blocks.size = f.blocks.size := by
    simp [Function.assign, Table.map, Table.size]
  constructor
  · intro j hj
    obtain ⟨i, hi, rfl⟩ := hcode j hj
    refine (h.framed i hi).mapRegisters (fun r hr => ?_) rfl
    cases r with
    | physical q => exact hr
    | virtual v =>
      simp only [replaceBy]
      split
      · rename_i p hp
        exact hcolors v p hp
      · rfl
  · intro j hj target htarget
    obtain ⟨i, hi, rfl⟩ := hcode j hj
    rw [Instr.targets_mapRegisters] at htarget
    exact hsize ▸ h.targets i hi target htarget

theorem allocateRegisters (h : f.Orderly incoming)
    (hg : f.allocateRegisters l options log = .ok (g, l', none) log') : g.Orderly incoming := by
  obtain ⟨-, spilled, live, a, hspills, -, hproper, rfl⟩ := allocateRegisters_eq_ok hg
  exact (h.of_spills hspills).assign hproper.allocatable

end Function.Orderly

end MxStar.Machine
