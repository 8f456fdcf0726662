import MxStar.Proofs.Machine.AllocationRun
import MxStar.Proofs.Machine.SelectedFunctions
import MxStar.Proofs.Machine.Sheltered

/-!
# Allocation converges

A round that finds no place for some registers spills them and starts again.
Temporaries are never among them: when only temporaries are left to put aside,
each has fewer neighbours than there are colours, because it meets one temporary
at most and the physical registers that the code reads carry arguments
(`Converging.not_mem_unspillable`).  So every failed round takes registers from
those that are not temporaries and adds none (`Converging.length_spillable_lt`).

The numbers of temporaries do not pass the width of a position: a round hands out
as many as there are places where a register that is not a temporary is named,
and afterwards there are so many places less (`spillBlocks_add_openCount`).
-/

namespace MxStar.Machine

variable {v : VirtualId} {f : Function}

/-! ## Places that can still need temporaries -/

namespace Instr

def openNames (T : IndexSet .virtual) (i : Instr) : List VirtualId :=
  (i.operands.filterMap fun (r, _) => r.virtual?.filter fun v => !T.contains v).eraseDups

theorem mem_openNames {T : IndexSet .virtual} {i : Instr} :
    v ∈ i.openNames T ↔ i.Names v ∧ v ∉ T := by
  simp only [openNames, List.mem_eraseDups, List.mem_filterMap, Prod.exists,
    Option.filter_eq_some_iff, Bool.not_eq_true', ← Bool.not_eq_true,
    Std.ExtTreeSet.contains_iff_mem, Names, virtual_mem_reads, virtual_mem_writes]
  constructor
  · rintro ⟨r, access, hmem, hv, hT⟩
    cases r with
    | physical p => simp [Register.virtual?] at hv
    | virtual w =>
      obtain rfl : w = v := by simpa [Register.virtual?] using hv
      refine ⟨?_, hT⟩
      cases access with
      | use => exact Or.inl hmem
      | define => exact Or.inr hmem
  · rintro ⟨hmem | hmem, hT⟩
    · exact ⟨_, _, hmem, rfl, hT⟩
    · exact ⟨_, _, hmem, rfl, hT⟩

variable {T T' : IndexSet .virtual} {slots : SpillSlots} {next : Nat} {i : Instr}

theorem length_temporaries :
    (i.temporaries slots next).length = (i.spilledOperands slots [.use, .define]).length := by
  simp [temporaries]

theorem names_of_mem_spilledOperands (h : v ∈ i.spilledOperands slots accesses) :
    v ∈ slots ∧ i.Names v := by
  obtain ⟨hslot, access, -, hmem⟩ := mem_spilledOperands.mp h
  refine ⟨hslot, ?_⟩
  cases access with
  | use => exact Or.inl (virtual_mem_reads.mpr hmem)
  | define => exact Or.inr (virtual_mem_writes.mpr hmem)

theorem length_temporaries_le (hslots : ∀ t ∈ T, t ∉ slots) :
    (i.temporaries slots next).length ≤ (i.openNames T).length := by
  rw [length_temporaries]
  refine (List.subperm_of_subset (nodup_spilledOperands _) fun v hv => ?_).length_le
  obtain ⟨hslot, hnames⟩ := names_of_mem_spilledOperands hv
  exact mem_openNames.mpr ⟨hnames, fun hT => hslots v hT hslot⟩

theorem length_openNames_mapRegisters (hslots : ∀ t ∈ T, t ∉ slots) (hold : ∀ t ∈ T, t ∈ T')
    (hlimit : next + (i.temporaries slots next).length ≤ sizeLimit)
    (hnew : ∀ t : VirtualId, next ≤ t.val → t.val < next + (i.temporaries slots next).length →
      t ∈ T') :
    (i.temporaries slots next).length +
        ((i.mapRegisters (renameBy (i.temporaries slots next))).openNames T').length ≤
      (i.openNames T).length := by
  have hopen : ∀ w ∈ (i.mapRegisters (renameBy (i.temporaries slots next))).openNames T',
      i.Names w ∧ w ∉ slots ∧ w ∉ T' := by
    intro w hw
    obtain ⟨hnames, hT⟩ := mem_openNames.mp hw
    have hcases : (({ core := i } : Group).spill slots next).core.Names w := hnames
    rcases Group.names_spill hlimit hcases with ⟨hnames, hslot⟩ | ⟨hlower, hupper⟩
    · exact ⟨hnames, hslot, hT⟩
    · exact absurd (hnew w hlower hupper) hT
  rw [length_temporaries, ← List.length_append]
  refine (List.subperm_of_subset (List.nodup_append.mpr
    ⟨nodup_spilledOperands _, nodup_eraseDups _, ?_⟩) ?_).length_le
  · rintro v hv w hw rfl
    exact (hopen v hw).2.1 (names_of_mem_spilledOperands hv).1
  · intro v hv
    rcases List.mem_append.mp hv with hv | hv
    · obtain ⟨hslot, hnames⟩ := names_of_mem_spilledOperands hv
      exact mem_openNames.mpr ⟨hnames, fun hT => hslots v hT hslot⟩
    · obtain ⟨hnames, -, hT⟩ := hopen v hv
      exact mem_openNames.mpr ⟨hnames, fun h => hT (hold v h)⟩

end Instr

/-- The number of places in code that name a register that is not a temporary. -/
def openCount (T : IndexSet .virtual) (code : List Instr) : Nat :=
  (code.map fun i => (i.openNames T).length).sum

theorem openCount_append (T : IndexSet .virtual) (code rest : List Instr) :
    openCount T (code ++ rest) = openCount T code + openCount T rest := by
  simp [openCount]

variable {code : List Instr}

theorem openCount_eq_zero {T : IndexSet .virtual} (h : ∀ i ∈ code, ∀ v, i.Names v → v ∈ T) :
    openCount T code = 0 := by
  refine List.sum_eq_zero fun n hn => ?_
  obtain ⟨i, hi, rfl⟩ := List.mem_map.mp hn
  rw [List.length_eq_zero_iff, List.eq_nil_iff_forall_not_mem]
  intro v hv
  obtain ⟨hnames, hT⟩ := Instr.mem_openNames.mp hv
  exact hT (h i hi v hnames)

section

variable {T T' : IndexSet .virtual} {slots : SpillSlots}

theorem snd_spillCode_le (hslots : ∀ t ∈ T, t ∉ slots) (next : Nat) (code : List Instr) :
    (spillCode slots next code).2 ≤ next + openCount T code := by
  induction code generalizing next with
  | nil => exact Nat.le_add_right _ _
  | cons i rest ih =>
    have hi : (i.temporaries slots next).length ≤ (i.openNames T).length :=
      Instr.length_temporaries_le hslots
    have hrest := ih (next + (i.temporaries slots next).length)
    simp only [spillCode, openCount, List.map_cons, List.sum_cons] at hrest ⊢
    omega

theorem snd_spillBlocks_le (hslots : ∀ t ∈ T, t ∉ slots) (next : Nat) (blocks : List Block) :
    (spillBlocks slots next blocks).2 ≤ next + openCount T (blocks.flatMap Block.code) := by
  induction blocks generalizing next with
  | nil => exact Nat.le_add_right _ _
  | cons block rest ih =>
    have hblock := snd_spillCode_le hslots next block.code
    have hrest := ih (spillCode slots next block.code).2
    simp only [spillBlocks, List.flatMap_cons, openCount_append]
    omega

theorem openCount_spill {i : Instr} {next : Nat}
    (hlimit : next + (i.temporaries slots next).length ≤ sizeLimit)
    (hnew : ∀ t : VirtualId, next ≤ t.val → t.val < next + (i.temporaries slots next).length →
      t ∈ T') :
    openCount T' (i.spill slots next) =
      ((i.mapRegisters (renameBy (i.temporaries slots next))).openNames T').length := by
  have htemporary : ∀ accesses, accesses ⊆ [.use, .define] → ∀ r slot, (r, slot) ∈
      slotTemporaries slots (i.temporaries slots next) (i.spilledOperands slots accesses) →
      ∀ v, r = .virtual v → v ∈ T' := by
    rintro accesses haccesses r slot hr v rfl
    obtain ⟨w, hw, -, hname⟩ := mem_slotTemporaries.mp hr
    obtain ⟨hslot, hnames⟩ := Instr.names_of_mem_spilledOperands hw
    rcases Group.rename_cases hlimit hnames hname with ⟨hnot, -⟩ | ⟨-, hlower, hupper⟩
    · exact absurd hslot hnot
    · exact hnew v hlower hupper
  have hmoves : ∀ accesses, accesses ⊆ [.use, .define] → ∀ make : Register × SlotId → Instr,
      (∀ p v, (make p).Names v → .virtual v = p.1) →
      openCount T' ((slotTemporaries slots (i.temporaries slots next)
        (i.spilledOperands slots accesses)).map make) = 0 := by
    intro accesses haccesses make hmake
    refine openCount_eq_zero (List.forall_mem_map.mpr ?_)
    rintro ⟨r, slot⟩ hp v hv
    exact htemporary accesses haccesses r slot hp v (hmake _ v hv).symm
  rw [Instr.spill, openCount_append, openCount_append,
    hmoves [.use] (by simp) (fun p => .load .word p.1 .sp (.slot p.2)) (by
      simp [Instr.Names, Instr.reads, Instr.writes, Instr.operands]),
    hmoves [.define] (by simp) (fun p => .store .word p.1 .sp (.slot p.2)) (by
      simp [Instr.Names, Instr.reads, Instr.writes, Instr.operands])]
  simp [openCount]

variable (hslots : ∀ t ∈ T, t ∉ slots) (hold : ∀ t ∈ T, t ∈ T')
include hslots hold

theorem spillCode_add_openCount {next : Nat} (hlimit : (spillCode slots next code).2 ≤ sizeLimit)
    (hnew : ∀ t : VirtualId, next ≤ t.val → t.val < (spillCode slots next code).2 → t ∈ T') :
    (spillCode slots next code).2 + openCount T' (spillCode slots next code).1 ≤
      next + openCount T code := by
  induction code generalizing next with
  | nil => simp [spillCode, openCount]
  | cons i rest ih =>
    simp only [spillCode] at hlimit hnew ⊢
    have hlast := le_snd_spillCode slots (next + (i.temporaries slots next).length) rest
    have hi := Instr.length_openNames_mapRegisters hslots hold (hlast.trans hlimit)
      fun t hlower hupper => hnew t hlower (hupper.trans_le hlast)
    have hrest := ih hlimit fun t hlower hupper => hnew t (by omega) hupper
    rw [openCount_append, openCount_spill (hlast.trans hlimit)
      fun t hlower hupper => hnew t hlower (hupper.trans_le hlast)]
    simp only [openCount, List.map_cons, List.sum_cons] at hrest ⊢
    omega

/-- **Every new temporary takes the place of an open name.** -/
theorem spillBlocks_add_openCount {next : Nat} {blocks : List Block}
    (hlimit : (spillBlocks slots next blocks).2 ≤ sizeLimit)
    (hnew : ∀ t : VirtualId, next ≤ t.val → t.val < (spillBlocks slots next blocks).2 → t ∈ T') :
    (spillBlocks slots next blocks).2 +
        openCount T' ((spillBlocks slots next blocks).1.flatMap Block.code) ≤
      next + openCount T (blocks.flatMap Block.code) := by
  induction blocks generalizing next with
  | nil => simp [spillBlocks, openCount]
  | cons block rest ih =>
    simp only [spillBlocks] at hlimit hnew ⊢
    have hlast := le_snd_spillBlocks slots (spillCode slots next block.code).2 rest
    have hblock := spillCode_add_openCount hslots hold (hlast.trans hlimit)
      fun t hlower hupper => hnew t hlower (hupper.trans_le hlast)
    have hfirst := le_snd_spillCode slots next block.code
    have hrest := ih hlimit fun t hlower hupper => hnew t (by omega) hupper
    simp only [List.flatMap_cons, openCount_append]
    omega

end

/-! ## What spilling leaves alone -/

theorem Instr.targets_mapRegisters (i : Instr) (rename : Register → Register) :
    (i.mapRegisters rename).targets = i.targets := by
  cases i <;> rfl

theorem Instr.isTerminator_mapRegisters (i : Instr) (rename : Register → Register) :
    (i.mapRegisters rename).isTerminator = i.isTerminator := by
  cases i <;> rfl

theorem Instr.physical_mem_reads_mapRegisters {i : Instr} {rename : Register → Register}
    (h : ∀ r, rename r = .physical p ↔ r = .physical p) :
    .physical p ∈ (i.mapRegisters rename).reads ↔ .physical p ∈ i.reads := by
  have h' : ∀ r, .physical p = rename r ↔ .physical p = r := fun r => by rw [eq_comm, h, eq_comm]
  cases i with
  | call symbol arguments => rfl
  | ret value => rfl
  | _ => simp [mapRegisters, reads, operands, h']

def codeTargets (code : List Instr) : List BlockId :=
  match code.getLast?.filter Instr.isTerminator with
  | some t => t.targets
  | none => []

theorem codeTargets_append (h : rest ≠ []) : codeTargets (code ++ rest) = codeTargets rest := by
  rw [codeTargets, codeTargets, List.getLast?_append_of_ne_nil _ h]

theorem codeTargets_of_not_isTerminator (h : ∀ i ∈ code, i.isTerminator = false) :
    codeTargets code = [] := by
  rw [codeTargets]
  split
  · rename_i t ht
    obtain ⟨hlast, hterm⟩ := Option.filter_eq_some_iff.mp ht
    simp [h t (List.mem_of_getLast? hlast)] at hterm
  · rfl

theorem codeTargets_spill (i : Instr) (slots : SpillSlots) (next : Nat) :
    codeTargets (i.spill slots next) = codeTargets [i] := by
  rw [Instr.spill, List.append_assoc, codeTargets_append (by simp)]
  cases hi : i.isTerminator with
  | true =>
    have hdefine : i.spilledOperands slots [.define] = [] :=
      Instr.spilledOperands_define_eq_nil (by simp [Instr.writes_of_isTerminator hi])
    simp [hdefine, slotTemporaries, codeTargets, Option.filter, Instr.isTerminator_mapRegisters, hi,
      Instr.targets_mapRegisters]
  | false =>
    rw [codeTargets_of_not_isTerminator, codeTargets_of_not_isTerminator]
    · simp [hi]
    · intro j hj
      rcases List.mem_append.mp hj with hj | hj
      · rw [List.mem_singleton.mp hj, Instr.isTerminator_mapRegisters, hi]
      · obtain ⟨p, -, rfl⟩ := List.mem_map.mp hj
        rfl

theorem codeTargets_spillCode (slots : SpillSlots) (next : Nat) (code : List Instr) :
    codeTargets (spillCode slots next code).1 = codeTargets code := by
  induction code generalizing next with
  | nil => rfl
  | cons i rest ih =>
    simp only [spillCode]
    by_cases hrest : rest = []
    · subst hrest
      simpa [spillCode] using codeTargets_spill i slots next
    · have hne : ∀ next, (spillCode slots next rest).1 ≠ [] := by
        intro next hnil
        obtain ⟨j, rest', rfl⟩ := List.exists_cons_of_ne_nil hrest
        simp [spillCode, Instr.spill] at hnil
      rw [codeTargets_append (hne _), ih, ← List.singleton_append, codeTargets_append hrest]

theorem exists_compute_iff : (∃ l, Liveness.compute f = .ok l) ↔
      (∀ b block, f.blocks.get? b = some block → ∀ target ∈ block.targets,
        target.val < f.blocks.size) ∧ f.exit.val < f.blocks.size := by
  have hedges : (∃ edges, f.edges = .ok edges) ↔
      ∀ b block, f.blocks.get? b = some block → ∀ target ∈ block.targets,
        target.val < f.blocks.size := by
    constructor
    · rintro ⟨edges, h⟩ b block hb target htarget
      exact (Function.edges_eq_ok h).2 b target (Function.mem_edgeList.mpr ⟨block, hb, htarget⟩)
    · intro h
      refine ⟨_, if_pos ?_⟩
      rw [List.all_eq_true]
      rintro ⟨b, target⟩ hedge
      obtain ⟨block, hb, htarget⟩ := Function.mem_edgeList.mp hedge
      simpa using h b block hb target htarget
  rw [← hedges]
  simp only [Liveness.compute, bind, Except.bind]
  cases hcases : f.edges with
  | error e => simp
  | ok edges =>
    by_cases hexit : f.exit.val < f.blocks.size
    · simp [hexit, pure, Except.pure]
    · simp [hexit, throw, throwThe, MonadExceptOf.throw]

namespace Function

variable {f : Function} {registers : List VirtualId}

theorem size_blocks_spill (f : Function) (registers : List VirtualId) :
    (f.spill registers).blocks.size = f.blocks.size := by
  simp [Function.spill, Table.size, length_spillBlocks]

theorem exists_compute_spill (h : ∃ l, Liveness.compute f = .ok l) :
    ∃ l, Liveness.compute (f.spill registers) = .ok l := by
  rw [exists_compute_iff] at h ⊢
  obtain ⟨htargets, hexit⟩ := h
  rw [size_blocks_spill]
  refine ⟨fun b block' hb' target htarget => ?_, hexit⟩
  cases hb : f.blocks.get? b with
  | none => simp [get?_spill_eq_none hb] at hb'
  | some block =>
    obtain ⟨start, -, -, hget⟩ := get?_spill registers hb
    obtain rfl := Option.mem_unique hget hb'
    have heq : codeTargets (spillCode (allocateSlots f.frame registers).2 start block.code).1 =
        block.targets := codeTargets_spillCode _ _ _
    exact htargets b block hb target (heq ▸ htarget)

theorem mem_inUse_of_spill (hlimit : (f.spill registers).virtuals ≤ sizeLimit)
    (hw : w ∈ (f.spill registers).inUse) (ht : w ∉ (f.spill registers).unspillable) :
    w ∈ f.inUse ∧ w ∉ f.unspillable ∧ w ∉ registers := by
  obtain ⟨block', hblock', j, hj, hw⟩ := mem_inUse.mp hw
  obtain ⟨block, hblock, start, hstart, hend, hcode⟩ := exists_of_mem_spill hblock'
  rw [hcode] at hj
  obtain ⟨i, hi, next, hnext, hlast, hj⟩ := exists_of_mem_spillCode hj
  obtain ⟨v, hv, hname⟩ := exists_of_virtual_mem_spill hj hw
  rw [mem_unspillable_spill hlimit, not_or] at ht
  rcases Group.rename_cases (hlast.trans (hend.trans hlimit)) hv hname with
    ⟨hslot, rfl⟩ | ⟨-, hlower, hupper⟩
  · exact ⟨mem_inUse.mpr ⟨block, hblock, i, hi, hv⟩, ht.1, fun h => hslot (mem_allocateSlots.mpr h)⟩
  · exact absurd ⟨by omega, by omega⟩ ht.2

theorem physical_mem_readRegisters_of_spill
    (h : .physical p ∈ Liveness.readRegisters (f.spill registers)) :
    .physical p ∈ Liveness.readRegisters f := by
  obtain ⟨j, hj, hp⟩ := List.mem_flatMap.mp h
  obtain ⟨block', hblock', hj⟩ := List.mem_flatMap.mp hj
  obtain ⟨block, hblock, start, -, -, hcode⟩ := exists_of_mem_spill hblock'
  rw [hcode] at hj
  obtain ⟨i, hi, next, -, -, hj⟩ := exists_of_mem_spillCode hj
  refine List.mem_flatMap.mpr ⟨i, List.mem_flatMap.mpr ⟨block, hblock, hi⟩, ?_⟩
  rw [Instr.mem_uses] at hp ⊢
  refine ⟨?_, hp.2⟩
  have hrename : ∀ r, renameBy (i.temporaries (allocateSlots f.frame registers).2 next) r =
      .physical p ↔ r = .physical p := by
    intro r
    cases r <;> simp [renameBy]
  have hsp : p ≠ .sp := by
    rintro rfl
    simp [Register.isTracked, Physical.isAllocatable, Physical.allocationOrder] at hp
  simp only [Instr.spill, List.mem_append, List.mem_map, List.mem_singleton, Prod.exists] at hj
  rcases hj with (⟨r, id, hr, rfl⟩ | rfl) | ⟨r, id, hr, rfl⟩
  · simp [Instr.reads, Instr.operands, hsp] at hp
  · exact (Instr.physical_mem_reads_mapRegisters hrename).mp hp.1
  · obtain ⟨v, -, -, hname⟩ := mem_slotTemporaries.mp hr
    have hp' : Register.physical p = r := by
      simpa [Instr.reads, Instr.operands, hsp] using hp.1
    rw [← hp', hrename] at hname
    simp at hname

end Function

/-! ## Rounds -/

/-- What every round finds and leaves. -/
structure Converging (f : Function) : Prop where
  sheltered : ∃ groups, Sheltered f groups
  /-- The code reads no physical registers but those that carry arguments and results -/
  arguments : ∀ p, .physical p ∈ Liveness.readRegisters f → p ∈ Physical.arguments
  below : ∀ v ∈ f.inUse, v.val < f.virtuals
  /-- There are numbers for all temporaries that can still be needed -/
  room : f.virtuals + openCount f.unspillable f.code ≤ sizeLimit
  solvable : ∃ l, Liveness.compute f = .ok l

def Function.spillable (f : Function) : List VirtualId :=
  f.inUse.toList.filter fun v => !f.unspillable.contains v

theorem Function.mem_spillable : v ∈ f.spillable ↔ v ∈ f.inUse ∧ v ∉ f.unspillable := by
  simp only [spillable, List.mem_filter, Bool.not_eq_true', ← Bool.not_eq_true,
    Std.ExtTreeSet.contains_iff_mem, Std.ExtTreeSet.mem_toList]

theorem Function.nodup_spillable (f : Function) : f.spillable.Nodup := by
  have hnodup : f.inUse.toList.Nodup :=
    Std.ExtTreeSet.distinct_toList.imp fun hne heq => hne (Std.compare_eq_iff_eq.mpr heq)
  exact hnodup.filter _

theorem length_filter_arguments_lt (budget : Option Nat) :
    1 + ((palette budget).filter (· ∈ Physical.arguments)).length < (palette budget).length := by
  have hall : ∀ n ≤ Physical.allocationOrder.length, minimumBudget ≤ n →
      1 + ((Physical.allocationOrder.take n).filter (· ∈ Physical.arguments)).length <
        (Physical.allocationOrder.take n).length := by decide
  have hmin : minimumBudget ≤ Physical.allocationOrder.length := by decide
  apply hall
  · omega
  · omega

theorem nodup_palette (budget : Option Nat) : (palette budget).Nodup :=
  (show Physical.allocationOrder.Nodup by decide).sublist (palette_sublist budget)

theorem mem_adjacency_iff_mem_inUse (h : Liveness.compute f = .ok l) :
    v ∈ (Interference.build f l).adjacency ↔ v ∈ f.inUse := by
  rw [Interference.mem_adjacency_build_iff]
  refine ⟨fun hvertex => ?_, .inl⟩
  rcases hvertex with hv | ⟨r, hint⟩
  · exact hv
  rcases (Interference.interferes_build f l v r).mp hint with hclash | hclash
  · obtain ⟨b, block, hb, hclash⟩ := hclash
    obtain ⟨i, hi, hdefs⟩ := List.mem_flatMap.mp (mem_of_codeClash hclash).1
    obtain ⟨block', hblock', hi⟩ := List.mem_flatMap.mp (Function.mem_code hb hi)
    exact Function.mem_inUse.mpr ⟨block', hblock', i, hi, Or.inr (Instr.mem_defs.mp hdefs).1⟩
  · obtain ⟨i, hi, huses⟩ := List.mem_flatMap.mp (mem_readRegisters_of_clashes h hclash)
    obtain ⟨block', hblock', hi⟩ := List.mem_flatMap.mp hi
    exact Function.mem_inUse.mpr ⟨block', hblock', i, hi, Or.inl (Instr.mem_uses.mp huses).1⟩

theorem mem_inUse_of_mem_uncolored (h : Liveness.compute f = .ok l) (hnodup : colors.Nodup)
    (hv : v ∈ ((Interference.build f l).color f.spillInfo colors).uncolored) : v ∈ f.inUse := by
  obtain ⟨before, -, -, hleft, -⟩ := Interference.isCandidate_of_mem_uncolored hnodup hv
  have hvertex := (Interference.mem_registers v).mp (Interference.mem_of_mem_leaving hleft)
  exact (mem_adjacency_iff_mem_inUse h).mp hvertex

namespace Converging

variable {f : Function}

variable (C : Converging f)
include C

theorem not_mem_unspillable (h : Liveness.compute f = .ok l)
    (hv : v ∈ ((Interference.build f l).color f.spillInfo (palette budget)).uncolored) :
    v ∉ f.unspillable := by
  intro ht
  obtain ⟨groups, S⟩ := C.sheltered
  obtain ⟨before, -, -, hpick, hdegree⟩ :=
    Interference.exists_of_mem_uncolored (nodup_palette budget) hv
  have hremaining : ∀ w ∈ Interference.leaving _ before, w ∈ f.unspillable :=
    Interference.unspillable_of_pick hpick hdegree ht
  have hle := S.degree_le h C.arguments hremaining ht (palette budget)
  have hlt := length_filter_arguments_lt budget
  omega

theorem spill (hregs : ∀ v ∈ registers, v ∉ f.unspillable) : Converging (f.spill registers) := by
  have hslots : ∀ t ∈ f.unspillable, t ∉ (allocateSlots f.frame registers).2 := fun t ht hmem =>
    hregs t (mem_allocateSlots.mp hmem) ht
  have hlimit : (f.spill registers).virtuals ≤ sizeLimit :=
    (snd_spillBlocks_le hslots f.virtuals f.blocks.entries.toList).trans C.room
  obtain ⟨groups, S⟩ := C.sheltered
  refine ⟨S.spill C.below hregs hlimit,
    fun p hp => C.arguments p (Function.physical_mem_readRegisters_of_spill hp),
    Function.lt_virtuals_spill C.below hlimit, ?_, Function.exists_compute_spill C.solvable⟩
  have hold : ∀ t ∈ f.unspillable, t ∈ (f.spill registers).unspillable := fun t ht =>
    (Function.mem_unspillable_spill hlimit).mpr (Or.inl ht)
  have hroom := spillBlocks_add_openCount hslots hold hlimit fun t hlower hupper =>
    (Function.mem_unspillable_spill hlimit).mpr (Or.inr ⟨hlower, hupper⟩)
  refine le_trans ?_ (hroom.trans C.room)
  simp [Function.spill, Function.code]

/-- **Every failed round leaves fewer registers that are not temporaries.** -/
theorem length_spillable_lt (hv : v ∈ registers) (hregs : ∀ v ∈ registers, v ∈ f.spillable) :
    (f.spill registers).spillable.length < f.spillable.length := by
  have hlimit : (f.spill registers).virtuals ≤ sizeLimit :=
    le_trans (Nat.le_add_right _ _)
      (C.spill fun w hw => (Function.mem_spillable.mp (hregs w hw)).2).room
  have hsubset : v :: (f.spill registers).spillable ⊆ f.spillable := by
    intro w hw
    rcases List.mem_cons.mp hw with rfl | hw
    · exact hregs w hv
    · obtain ⟨hused, ht⟩ := Function.mem_spillable.mp hw
      obtain ⟨hused, ht, -⟩ := Function.mem_inUse_of_spill hlimit hused ht
      exact Function.mem_spillable.mpr ⟨hused, ht⟩
  have hnodup : (v :: (f.spill registers).spillable).Nodup := by
    refine List.nodup_cons.mpr ⟨fun hmem => ?_, Function.nodup_spillable _⟩
    obtain ⟨hused, ht⟩ := Function.mem_spillable.mp hmem
    exact (Function.mem_inUse_of_spill hlimit hused ht).2.2 hv
  exact (List.subperm_of_subset hnodup hsubset).length_le

theorem mem_spillable_of_mem_uncolored (h : Liveness.compute f = .ok l)
    (hv : v ∈ ((Interference.build f l).color f.spillInfo (palette budget)).uncolored) :
    v ∈ f.spillable :=
  Function.mem_spillable.mpr
    ⟨mem_inUse_of_mem_uncolored h (nodup_palette budget) hv, C.not_mem_unspillable h hv⟩

end Converging

/-- A failed round: some registers get no colour and are spilled. -/
def FailedRound (colors : List Physical) (f f' : Function) : Prop :=
  ∃ l, Liveness.compute f = .ok l ∧
    ((Interference.build f l).color f.spillInfo colors).uncolored ≠ [] ∧
    f' = f.spill ((Interference.build f l).color f.spillInfo colors).uncolored

theorem Converging.of_failedRounds {f : Function} (C : Converging f)
    (h : Relation.ReflTransGen (FailedRound (palette budget)) f f') : Converging f' := by
  induction h with
  | refl => exact C
  | tail _ hround ih =>
    obtain ⟨l, hl, -, rfl⟩ := hround
    exact ih.spill fun v hv => ih.not_mem_unspillable hl hv

theorem Converging.exists_allocateRounds (C : Converging f) (failure : Error)
    (hleft : f.spillable.length < left) (round : Nat) (l : Liveness) (log : Log) :
    ∃ allocation a log', allocateRounds (palette budget) failure left round f l log =
        .ok allocation log' ∧ allocation.outcome = .ok a ∧
      Relation.ReflTransGen (FailedRound (palette budget)) f allocation.function := by
  induction left generalizing f round l log with
  | zero => omega
  | succ left ih =>
    obtain ⟨live, hlive⟩ := C.solvable
    have hrun : f.liveness log = .ok live (log.push (.livenessConverged f.name live.visits)) := by
      simp only [Function.liveness, hlive]
      rfl
    simp only [allocateRounds, bind, EStateM.bind, hrun]
    by_cases huncolored :
        ((Interference.build f live).color f.spillInfo (palette budget)).uncolored = []
    · rw [huncolored]
      exact ⟨_, _, _, rfl, rfl, .refl⟩
    · obtain ⟨v, hv⟩ := List.exists_mem_of_ne_nil _ huncolored
      have hlt := C.length_spillable_lt hv fun w hw => C.mem_spillable_of_mem_uncolored hlive hw
      have C' : Converging (f.spill
          ((Interference.build f live).color f.spillInfo (palette budget)).uncolored) :=
        C.spill fun w hw => C.not_mem_unspillable hlive hw
      rw [if_neg (by simpa using huncolored)]
      obtain ⟨allocation, a, log', hrounds, hout, hreach⟩ := ih C' (by omega) (round + 1) live _
      exact ⟨allocation, a, log', hrounds, hout, .head ⟨live, hlive, huncolored, rfl⟩ hreach⟩

/-! ## Selected functions -/

theorem openCount_le_mentions (f : Function) : openCount ∅ f.code ≤ f.mentions.length := by
  rw [openCount, Function.mentions, List.length_flatMap]
  refine List.sum_le_sum fun i _ => ?_
  refine (List.subperm_of_subset (nodup_eraseDups _) fun v hv => ?_).length_le
  obtain ⟨hnames, -⟩ := Instr.mem_openNames.mp hv
  refine List.mem_filterMap.mpr ⟨.virtual v, ?_, rfl⟩
  rw [List.mem_append, Instr.mem_uses, Instr.mem_defs]
  exact hnames.imp (⟨·, rfl⟩) (⟨·, rfl⟩)

theorem length_spillable_le (f : Function) : f.spillable.length ≤ f.inUse.size := by
  rw [← Std.ExtTreeSet.length_toList]
  exact List.length_filter_le _ _

theorem codeTargets_subset (h : target ∈ codeTargets code) : ∃ i ∈ code, target ∈ i.targets := by
  rw [codeTargets] at h
  split at h
  · rename_i t ht
    exact ⟨t, List.mem_of_getLast? (Option.filter_eq_some_iff.mp ht).1, h⟩
  · simp at h

section

variable (h : Function.ofFlow program source options = .ok f)
include h

theorem exists_compute_ofFlow : ∃ l, Liveness.compute f = .ok l := by
  obtain ⟨hmodest, hexit, -⟩ := modest_ofFlow h
  refine exists_compute_iff.mpr ⟨fun b block hb target htarget => ?_, hexit⟩
  obtain ⟨i, hi, htarget⟩ := codeTargets_subset htarget
  exact (hmodest i (Function.mem_code hb hi)).targets target htarget

theorem converging_ofFlow (hroom : f.virtuals + f.mentions.length ≤ sizeLimit) : Converging f := by
  obtain ⟨hmodest, -, hunspillable⟩ := modest_ofFlow h
  refine ⟨⟨_, sheltered_start hunspillable⟩, ?_, ?_, ?_, ?_⟩
  · intro p hp
    obtain ⟨i, hi, hp⟩ := List.mem_flatMap.mp hp
    exact (hmodest i hi).arguments p hp
  · intro v hv
    obtain ⟨block, hblock, i, hi, hv⟩ := Function.mem_inUse.mp hv
    exact (hmodest i (List.mem_flatMap.mpr ⟨block, hblock, hi⟩)).below v hv
  · rw [hunspillable]
    have := openCount_le_mentions f
    omega
  · exact exists_compute_ofFlow h

end

/-- **Allocation converges.**  For a selected function, any budget and at least one
round more than there are virtual registers in use, all registers get places.
No round hands a temporary to spilling, and every failed round leaves fewer
registers that are not temporaries.

Virtual registers are numbered in 32 bits, and every mention of one may come to
need a number for a temporary. -/
theorem Module.exists_allocate_of_ofFlow {program : Flow.Program} {selection : Options}
    {m : Module} {log log' : Log} (hm : Module.ofFlow program selection log = .ok m log')
    {f : Function} (hf : f ∈ m.functions) (hroom : f.virtuals + f.mentions.length ≤ sizeLimit)
    (options : Options) (hrounds : 1 + f.inUse.size ≤ options.rounds) :
    (∀ l log, ∃ allocation a log', f.allocate l options log = .ok allocation log' ∧
      allocation.outcome = .ok a ∧
      Relation.ReflTransGen (FailedRound (palette options.budget)) f allocation.function) ∧
    ∀ g, Relation.ReflTransGen (FailedRound (palette options.budget)) f g →
      ∃ live, Liveness.compute g = .ok live ∧
        let uncolored :=
          ((Interference.build g live).color g.spillInfo (palette options.budget)).uncolored
        (∀ v ∈ uncolored, v ∉ g.unspillable) ∧
          (uncolored ≠ [] → (g.spill uncolored).spillable.length < g.spillable.length) := by
  obtain ⟨source, -, hflow⟩ := (Module.forall₂_ofFlow hm).exists_of_mem_right hf
  have C := converging_ofFlow hflow hroom
  constructor
  · intro l log
    have hle := length_spillable_le f
    exact C.exists_allocateRounds _ (by omega) 1 l log
  · intro g hg
    have C' := C.of_failedRounds hg
    obtain ⟨live, hlive⟩ := C'.solvable
    refine ⟨live, hlive, fun v hv => C'.not_mem_unspillable hlive hv, fun hne => ?_⟩
    obtain ⟨v, hv⟩ := List.exists_mem_of_ne_nil _ hne
    exact C'.length_spillable_lt hv fun w hw => C'.mem_spillable_of_mem_uncolored hlive hw

/-- Nine arguments do not fit three registers, and rounds of spilling find places
for them with the help of fourteen temporaries. -/
theorem Module.exists_allocate_relay :
    ∃ m log f, Module.ofFlow { functions := [relay] } {} #[] = .ok m log ∧ f ∈ m.functions ∧
      f.virtuals + f.mentions.length = 46 ∧ f.inUse.size = 14 ∧ ∃ allocation a log',
        f.allocate {} { budget := some 3 } #[] = .ok allocation log' ∧
          allocation.outcome = .ok a ∧ allocation.function.unspillable.size = 14 := by
  have hfacts : (match Module.ofFlow { functions := [relay] } {} #[] with
      | .ok m _ => m.functions.length == 1 && m.functions.all fun f =>
          f.virtuals + f.mentions.length == 46 && f.inUse.size == 14 &&
            match f.allocate {} { budget := some 3 } #[] with
            | .ok allocation _ => allocation.function.unspillable.size == 14
            | .error _ _ => false
      | .error _ _ => false) = true := by decide +kernel
  split at hfacts
  · rename_i m log hm
    rw [Bool.and_eq_true, List.all_eq_true, beq_iff_eq] at hfacts
    obtain ⟨f, hf⟩ := List.exists_mem_of_length_pos (by omega : 0 < m.functions.length)
    have hsizes := hfacts.2 f hf
    rw [Bool.and_eq_true, Bool.and_eq_true, beq_iff_eq, beq_iff_eq] at hsizes
    obtain ⟨⟨hroom, hused⟩, hallocated⟩ := hsizes
    obtain ⟨allocation, a, log', hallocate, houtcome, -⟩ :=
      (Module.exists_allocate_of_ofFlow hm hf (hroom ▸ by decide) { budget := some 3 }
        (hused ▸ by decide)).1 {} #[]
    rw [hallocate] at hallocated
    exact ⟨m, log, f, hm, hf, hroom, hused, allocation, a, log', hallocate, houtcome,
      by simpa using hallocated⟩
  · simp at hfacts

end MxStar.Machine
