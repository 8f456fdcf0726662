import MxStar.Proofs.Machine.Clash
import MxStar.Proofs.Machine.SpillCode

/-!
# Temporaries of spilled registers

After any number of rounds of spilling, code is a sequence of groups: loads into
temporaries, one instruction that reads them, stores of the temporary it writes
(`Group`).  A temporary belongs to one group only, is loaded before it is read
there and is stored right after it is written.  So no temporary is live between
groups (`Group.Holds.not_mem_liveBefore`), and within a group two temporaries
meet only if the instruction reads both (`Group.Holds.of_codeClash`).

Spilling registers that are not temporaries keeps all this: the instruction of a
group gets new temporaries, which are loaded after the old ones and stored before
them (`Group.Holds.spill`), and no other group has their names
(`Group.pairwise_spillAll`).
-/

namespace MxStar.Machine

variable {slots : SpillSlots} {out : RegisterSet} {T : IndexSet .virtual}

theorem liveBefore_append (code rest : List Instr) (out : RegisterSet) :
    liveBefore (code ++ rest) out = liveBefore code (liveBefore rest out) := by
  simp [liveBefore]

theorem codeClash_append {code : List Instr} :
    CodeClash (code ++ rest) out d r ↔
      CodeClash code (liveBefore rest out) d r ∨ CodeClash rest out d r := by
  induction code with
  | nil => simp [CodeClash]
  | cons i code ih =>
    rw [List.cons_append, codeClash_cons, codeClash_cons, ih, liveBefore_append]
    tauto

theorem mem_uses_or_mem_of_mem_liveBefore {code : List Instr} (h : r ∈ liveBefore code out) :
    r ∈ code.flatMap Instr.uses ∨ r ∈ out := by
  rcases (mem_liveBefore_iff code out r).mp h with h | h
  · exact Or.inl (mem_uses_of_mem_liveBefore h)
  · exact Or.inr h.1

theorem mem_of_codeClash {code : List Instr} (h : CodeClash code out d r) :
    d ∈ code.flatMap Instr.defs ∧ (r ∈ code.flatMap Instr.uses ∨ r ∈ out) := by
  obtain ⟨before, i, after, rfl, hd, hr, -⟩ := h
  have hlive : r ∈ liveBefore after out := by
    cases i with
    | mv rd rs => exact Std.ExtTreeSet.mem_of_mem_erase hr
    | _ => exact hr
  refine ⟨List.mem_flatMap.mpr ⟨i, by simp, hd⟩, ?_⟩
  rcases mem_uses_or_mem_of_mem_liveBefore hlive with h | h
  · left
    obtain ⟨j, hj, hr⟩ := List.mem_flatMap.mp h
    exact List.mem_flatMap.mpr ⟨j, by simp [hj], hr⟩
  · exact Or.inr h

namespace Instr

def Names (i : Instr) (v : VirtualId) : Prop :=
  .virtual v ∈ i.reads ∨ .virtual v ∈ i.writes

variable {i : Instr}

theorem writes_eq_singleton (h : .virtual v ∈ i.writes) : i.writes = [.virtual v] := by
  cases i with
  | call symbol arguments => simp [writes] at h
  | _ => simp_all [writes, operands]

theorem length_reads_filter_le (h : .virtual v ∈ i.reads) :
    (i.reads.filter (· ≠ .virtual v)).length ≤ 1 := by
  have hone : ∀ r, ([r].filter (· ≠ Register.virtual v)).length ≤ 1 :=
    fun r => List.length_filter_le _ _
  cases i with
  | call symbol arguments =>
    obtain ⟨p, -, hp⟩ := List.mem_map.mp h
    simp at hp
  | ret value => cases value <;> simp [reads, operands] at h
  | alu op rd rs1 rs2 =>
    rcases List.mem_pair.mp (show Register.virtual v ∈ [rs1, rs2] from h) with rfl | rfl
    · simpa [reads, operands] using hone rs2
    · simpa [reads, operands, List.filter_cons] using hone rs1
  | store width rs base offset =>
    rcases List.mem_pair.mp (show Register.virtual v ∈ [rs, base] from h) with rfl | rfl
    · simpa [reads, operands] using hone base
    · simpa [reads, operands, List.filter_cons] using hone rs
  | _ => first
    | exact hone _
    | simp [reads, operands] at h

variable {rename : Register → Register} (hphysical : ∀ p, rename (.physical p) = .physical p)
include hphysical

theorem virtual_mem_reads_mapRegisters :
    .virtual w ∈ (i.mapRegisters rename).reads ↔
      ∃ v, .virtual v ∈ i.reads ∧ rename (.virtual v) = .virtual w := by
  simp only [virtual_mem_reads, operands_mapRegisters, List.mem_map, Prod.exists, Prod.mk.injEq]
  constructor
  · rintro ⟨r, access, hmem, hname, rfl⟩
    cases r with
    | physical p => simp [hphysical] at hname
    | virtual v => exact ⟨v, hmem, hname⟩
  · rintro ⟨v, hmem, hname⟩
    exact ⟨.virtual v, .use, hmem, hname, rfl⟩

theorem virtual_mem_writes_mapRegisters :
    .virtual w ∈ (i.mapRegisters rename).writes ↔
      ∃ v, .virtual v ∈ i.writes ∧ rename (.virtual v) = .virtual w := by
  simp only [virtual_mem_writes, operands_mapRegisters, List.mem_map, Prod.exists, Prod.mk.injEq]
  constructor
  · rintro ⟨r, access, hmem, hname, rfl⟩
    cases r with
    | physical p => simp [hphysical] at hname
    | virtual v => exact ⟨v, hmem, hname⟩
  · rintro ⟨v, hmem, hname⟩
    exact ⟨.virtual v, .define, hmem, hname, rfl⟩

end Instr

/-! ## Groups -/

/-- An instruction between the loads and the stores of its temporaries. -/
structure Group where
  reloads : List (Register × SlotId) := []
  core : Instr
  stores : List (Register × SlotId) := []

namespace Group

def code (g : Group) : List Instr :=
  g.reloads.map (fun (r, slot) => .load .word r .sp (.slot slot)) ++
    ([g.core] ++ g.stores.map (fun (r, slot) => .store .word r .sp (.slot slot)))

/-- The loads and stores of a group move temporaries that its instruction names,
and a temporary that the instruction reads is loaded. -/
structure Holds (T : IndexSet .virtual) (g : Group) : Prop where
  reloads : ∀ p ∈ g.reloads, ∃ t ∈ T, p.1 = .virtual t ∧ .virtual t ∈ g.core.reads
  stores : ∀ p ∈ g.stores, ∃ t ∈ T, p.1 = .virtual t ∧ .virtual t ∈ g.core.writes
  loaded : ∀ t ∈ T, .virtual t ∈ g.core.reads → .virtual t ∈ g.reloads.map Prod.fst

theorem uses_loads (reloads : List (Register × SlotId)) :
    (reloads.map fun (r, slot) => Instr.load .word r .sp (.slot slot)).flatMap Instr.uses = [] := by
  induction reloads with
  | nil => rfl
  | cons p rest ih => simpa [Instr.uses, Instr.reads, Instr.operands, Register.isTracked,
      Physical.isAllocatable, Physical.allocationOrder] using ih

theorem mem_defs_loads {reloads : List (Register × SlotId)} :
    r ∈ (reloads.map fun (r, slot) => Instr.load .word r .sp (.slot slot)).flatMap Instr.defs ↔
      r ∈ reloads.map Prod.fst ∧ r.isTracked = true := by
  induction reloads with
  | nil => simp
  | cons p rest ih =>
    rw [List.map_cons, List.flatMap_cons, List.mem_append, ih, Instr.mem_defs]
    simp only [Instr.writes, Instr.operands, List.map_cons, List.mem_cons]
    simp
    tauto

theorem defs_stores (stores : List (Register × SlotId)) :
    (stores.map fun (r, slot) => Instr.store .word r .sp (.slot slot)).flatMap Instr.defs = [] := by
  induction stores with
  | nil => rfl
  | cons p rest ih => simpa [Instr.defs, Instr.writes, Instr.operands] using ih

theorem mem_of_mem_uses_stores {stores : List (Register × SlotId)}
    (h : r ∈ (stores.map fun (r, slot) => Instr.store .word r .sp (.slot slot)).flatMap
      Instr.uses) :
    r ∈ stores.map Prod.fst := by
  obtain ⟨i, hi, hr⟩ := List.mem_flatMap.mp h
  obtain ⟨p, hp, rfl⟩ := List.mem_map.mp hi
  rw [Instr.mem_uses] at hr
  obtain ⟨hreads, htracked⟩ := hr
  rcases List.mem_pair.mp (show r ∈ [p.1, .sp] from hreads) with rfl | rfl
  · exact List.mem_map_of_mem hp
  · simp [Register.isTracked, Physical.isAllocatable, Physical.allocationOrder] at htracked

namespace Holds

variable {T : IndexSet .virtual} {g : Group} {out : RegisterSet} {t : VirtualId}

theorem mem_writes_of_mem_liveBefore (H : g.Holds T) (hout : .virtual t ∉ out) (h : .virtual t ∈
      liveBefore (g.stores.map fun (r, slot) => Instr.store .word r .sp (.slot slot)) out) :
    .virtual t ∈ g.core.writes := by
  rcases mem_uses_or_mem_of_mem_liveBefore h with h | h
  · obtain ⟨p, hp, hpt⟩ := List.mem_map.mp (mem_of_mem_uses_stores h)
    obtain ⟨u, -, hu, hwrites⟩ := H.stores p hp
    rwa [← hpt, hu]
  · exact absurd h hout

theorem mem_reads_of_mem_liveBefore (H : g.Holds T) (hout : .virtual t ∉ out)
    (h : .virtual t ∈ liveBefore ([g.core] ++
      g.stores.map fun (r, slot) => Instr.store .word r .sp (.slot slot)) out) :
    .virtual t ∈ g.core.reads := by
  rw [liveBefore_append] at h
  rcases (Instr.mem_liveBefore _ _ _).mp h with h | ⟨h, hdefs⟩
  · exact (Instr.mem_uses.mp h).1
  · exact absurd (Instr.mem_defs.mpr ⟨H.mem_writes_of_mem_liveBefore hout h, rfl⟩) hdefs

theorem not_mem_liveBefore (H : g.Holds T) (ht : t ∈ T) (hout : .virtual t ∉ out) :
    .virtual t ∉ liveBefore g.code out := by
  intro h
  rw [code, liveBefore_append, mem_liveBefore_iff] at h
  rcases h with h | ⟨h, hdefs⟩
  · have := mem_uses_of_mem_liveBefore h
    simp [uses_loads] at this
  · apply hdefs
    rw [mem_defs_loads]
    exact ⟨H.loaded t ht (H.mem_reads_of_mem_liveBefore hout h), rfl⟩

/-- **A temporary meets temporaries that are read together with it**, and nothing
else is written while it is live. -/
theorem of_codeClash (H : g.Holds T) (hout : .virtual t ∉ out)
    (h : CodeClash g.code out d (.virtual t)) :
    ∃ u ∈ T, d = .virtual u ∧ .virtual u ∈ g.core.reads ∧ .virtual t ∈ g.core.reads := by
  rw [code, codeClash_append, codeClash_append] at h
  rcases h with h | h | h
  · obtain ⟨hd, hr⟩ := mem_of_codeClash h
    obtain ⟨p, hp, rfl⟩ := List.mem_map.mp (mem_defs_loads.mp hd).1
    obtain ⟨u, hu, hpu, hreads⟩ := H.reloads p hp
    refine ⟨u, hu, hpu, hreads, ?_⟩
    rcases hr with hr | hr
    · simp [uses_loads] at hr
    · exact H.mem_reads_of_mem_liveBefore hout hr
  · -- the instruction writes one register, the only temporary that is live after it
    obtain ⟨hd, hlive, hne⟩ := (codeClash_cons.mp h).resolve_right (by simp [CodeClash])
    have hafter : .virtual t ∈
        liveBefore (g.stores.map fun (r, slot) => Instr.store .word r .sp (.slot slot)) out := by
      revert hlive
      cases g.core with
      | mv rd rs => exact Std.ExtTreeSet.mem_of_mem_erase
      | _ => exact id
    have hwrites := Instr.writes_eq_singleton (H.mem_writes_of_mem_liveBefore hout hafter)
    have hd' := (Instr.mem_defs.mp hd).1
    rw [hwrites, List.mem_singleton] at hd'
    exact absurd hd'.symm hne
  · have hd := (mem_of_codeClash h).1
    simp [defs_stores] at hd

end Holds

variable {groups : List Group} {t : VirtualId} (H : ∀ g ∈ groups, g.Holds T) (ht : t ∈ T)
  (hout : .virtual t ∉ out)
include H ht hout

theorem not_mem_liveBefore_flatMap : .virtual t ∉ liveBefore (groups.flatMap code) out := by
  induction groups with
  | nil => exact hout
  | cons g rest ih =>
    rw [List.flatMap_cons, liveBefore_append]
    exact (H g (.head _)).not_mem_liveBefore ht (ih fun h hh => H h (.tail _ hh))

theorem exists_of_codeClash_flatMap (h : CodeClash (groups.flatMap code) out d (.virtual t)) :
    ∃ g ∈ groups, ∃ u ∈ T, d = .virtual u ∧ .virtual u ∈ g.core.reads ∧
      .virtual t ∈ g.core.reads := by
  induction groups with
  | nil => simp [CodeClash] at h
  | cons g rest ih =>
    have hrest : ∀ h ∈ rest, h.Holds T := fun h hh => H h (.tail _ hh)
    rw [List.flatMap_cons, codeClash_append] at h
    rcases h with h | h
    · exact ⟨g, .head _, (H g (.head _)).of_codeClash (not_mem_liveBefore_flatMap hrest ht hout) h⟩
    · obtain ⟨g', hg', hclash⟩ := ih hrest h
      exact ⟨g', .tail _ hg', hclash⟩

end Group

/-! ## Spilling groups -/

theorem spillCode_append (slots : SpillSlots) (next : Nat) (code rest : List Instr) :
    spillCode slots next (code ++ rest) =
      ((spillCode slots next code).1 ++ (spillCode slots (spillCode slots next code).2 rest).1,
        (spillCode slots (spillCode slots next code).2 rest).2) := by
  induction code generalizing next with
  | nil => rfl
  | cons i code ih => simp [spillCode, ih]

theorem Instr.mapRegisters_id (i : Instr) : i.mapRegisters (fun r => r) = i := by
  cases i <;> rfl

theorem spillCode_eq_self {code : List Instr} (next : Nat)
    (h : ∀ i ∈ code, ∀ v, i.Names v → v ∉ slots) : spillCode slots next code = (code, next) := by
  induction code with
  | nil => rfl
  | cons i rest ih =>
    have hnone : ∀ accesses, i.spilledOperands slots accesses = [] := by
      intro accesses
      rw [List.eq_nil_iff_forall_not_mem]
      intro v hv
      obtain ⟨hslot, access, -, hmem⟩ := Instr.mem_spilledOperands.mp hv
      refine h i (.head _) v ?_ hslot
      cases access with
      | use => exact Or.inl (Instr.virtual_mem_reads.mpr hmem)
      | define => exact Or.inr (Instr.virtual_mem_writes.mpr hmem)
    have hself : i.mapRegisters (renameBy []) = i := by
      rw [show renameBy [] = fun r => r from funext fun r => by cases r <;> rfl,
        Instr.mapRegisters_id]
    rw [spillCode, Instr.temporaries, hnone, List.zipIdx_nil, List.map_nil, List.length_nil,
      Nat.add_zero, ih fun j hj => h j (.tail _ hj)]
    simp [Instr.spill, Instr.temporaries, hnone, slotTemporaries, hself]

namespace Group

def spill (slots : SpillSlots) (next : Nat) (g : Group) : Group :=
  let temporaries := g.core.temporaries slots next
  { reloads := g.reloads ++ slotTemporaries slots temporaries (g.core.spilledOperands slots [.use])
    core := g.core.mapRegisters (renameBy temporaries)
    stores := slotTemporaries slots temporaries
      (g.core.spilledOperands slots [.define]) ++ g.stores }

/-- Groups after their instructions are spilled, and the next free number. -/
def spillAll (slots : SpillSlots) (next : Nat) : List Group → List Group × Nat
  | [] => ([], next)
  | g :: rest =>
    let (rest, last) := spillAll slots (next + (g.core.temporaries slots next).length) rest
    (g.spill slots next :: rest, last)

theorem spillCode_code {g : Group} (H : g.Holds T) (hslots : ∀ t ∈ T, t ∉ slots) (next : Nat) :
    spillCode slots next g.code =
      ((g.spill slots next).code, next + (g.core.temporaries slots next).length) := by
  have hloads : ∀ i ∈ g.reloads.map (fun (r, slot) => Instr.load .word r .sp (.slot slot)),
      ∀ v, i.Names v → v ∉ slots := by
    intro i hi v hv
    obtain ⟨p, hp, rfl⟩ := List.mem_map.mp hi
    obtain ⟨t, ht, hpt, -⟩ := H.reloads p hp
    obtain rfl : t = v := by
      simpa [Instr.Names, Instr.reads, Instr.writes, Instr.operands, hpt, eq_comm] using hv
    exact hslots t ht
  have hstores : ∀ i ∈ g.stores.map (fun (r, slot) => Instr.store .word r .sp (.slot slot)),
      ∀ v, i.Names v → v ∉ slots := by
    intro i hi v hv
    obtain ⟨p, hp, rfl⟩ := List.mem_map.mp hi
    obtain ⟨t, ht, hpt, -⟩ := H.stores p hp
    obtain rfl : t = v := by
      simpa [Instr.Names, Instr.reads, Instr.writes, Instr.operands, hpt, eq_comm] using hv
    exact hslots t ht
  have hcore : spillCode slots next [g.core] =
      (g.core.spill slots next, next + (g.core.temporaries slots next).length) := by
    simp [spillCode]
  rw [code, spillCode_append, spillCode_append, spillCode_eq_self _ hloads]
  simp only [hcore]
  rw [spillCode_eq_self _ hstores]
  simp [code, spill, Instr.spill]

theorem spillCode_flatMap_code (H : ∀ g ∈ groups, g.Holds T) (hslots : ∀ t ∈ T, t ∉ slots)
    (next : Nat) :
    spillCode slots next (groups.flatMap code) =
      ((spillAll slots next groups).1.flatMap code, (spillAll slots next groups).2) := by
  induction groups generalizing next with
  | nil => rfl
  | cons g rest ih =>
    rw [List.flatMap_cons, spillCode_append, spillCode_code (H g List.mem_cons_self) hslots]
    simp only
    rw [ih fun h hh => H h (List.mem_cons_of_mem _ hh)]
    simp [spillAll]

theorem spillAll_append (slots : SpillSlots) (next : Nat) (groups rest : List Group) :
    spillAll slots next (groups ++ rest) =
      ((spillAll slots next groups).1 ++ (spillAll slots (spillAll slots next groups).2 rest).1,
        (spillAll slots (spillAll slots next groups).2 rest).2) := by
  induction groups generalizing next with
  | nil => rfl
  | cons g groups ih => simp [spillAll, ih]

theorem le_snd_spillAll (slots : SpillSlots) (next : Nat) (groups : List Group) :
    next ≤ (spillAll slots next groups).2 := by
  induction groups generalizing next with
  | nil => exact le_rfl
  | cons g rest ih => exact (Nat.le_add_right _ _).trans (ih _)

theorem exists_of_mem_spillAll {next : Nat} (h : g' ∈ (spillAll slots next groups).1) :
    ∃ g ∈ groups, ∃ start, next ≤ start ∧
      start + (g.core.temporaries slots start).length ≤ (spillAll slots next groups).2 ∧
      g' = g.spill slots start := by
  induction groups generalizing next with
  | nil => simp [spillAll] at h
  | cons g rest ih =>
    simp only [spillAll] at h ⊢
    rcases List.mem_cons.mp h with rfl | h
    · exact ⟨g, .head _, next, le_rfl, le_snd_spillAll _ _ _, rfl⟩
    · obtain ⟨g1, hg1, start, hstart, hlast, rfl⟩ := ih h
      exact ⟨g1, .tail _ hg1, start, by omega, hlast, rfl⟩

section

variable {slots : SpillSlots} {next : Nat} {g : Group}

theorem rename_cases {i : Instr} (hlimit : next + (i.temporaries slots next).length ≤ sizeLimit)
    {v w : VirtualId} (hv : i.Names v)
    (h : renameBy (i.temporaries slots next) (.virtual v) = .virtual w) :
    (v ∉ slots ∧ w = v) ∨ (v ∈ slots ∧ next ≤ w.val ∧
      w.val < next + (i.temporaries slots next).length) := by
  by_cases hslot : v ∈ slots
  · have hmem : v ∈ i.spilledOperands slots [.use, .define] := by
      rw [Instr.mem_spilledOperands]
      rcases hv with hv | hv
      · exact ⟨hslot, .use, by simp, Instr.virtual_mem_reads.mp hv⟩
      · exact ⟨hslot, .define, by simp, Instr.virtual_mem_writes.mp hv⟩
    obtain ⟨k, hk, hname⟩ := renameBy_temporaries hlimit hmem
    obtain rfl : ⟨next + k⟩ = w := Register.virtual.inj (hname.symm.trans h)
    have hlt : k < (i.temporaries slots next).length := by
      simpa [Instr.temporaries] using (List.getElem?_eq_some_iff.mp hk).1
    exact Or.inr ⟨hslot, Nat.le_add_right _ _, Nat.add_lt_add_left hlt next⟩
  · have hmem : v ∉ i.spilledOperands slots [.use, .define] := fun hmem =>
      hslot (Instr.mem_spilledOperands.mp hmem).1
    have hsame := (stands_temporaries i slots le_rfl hlimit).other v hmem
    exact Or.inl ⟨hslot, (Register.virtual.inj (hsame.symm.trans h)).symm⟩

theorem names_spill (hlimit : next + (g.core.temporaries slots next).length ≤ sizeLimit)
    (h : (g.spill slots next).core.Names w) :
    (g.core.Names w ∧ w ∉ slots) ∨
      (next ≤ w.val ∧ w.val < next + (g.core.temporaries slots next).length) := by
  obtain ⟨v, hv, hname⟩ : ∃ v, g.core.Names v ∧
      renameBy (g.core.temporaries slots next) (.virtual v) = .virtual w := by
    rcases h with h | h
    · obtain ⟨v, hv, hname⟩ := (Instr.virtual_mem_reads_mapRegisters fun p => rfl).mp h
      exact ⟨v, Or.inl hv, hname⟩
    · obtain ⟨v, hv, hname⟩ := (Instr.virtual_mem_writes_mapRegisters fun p => rfl).mp h
      exact ⟨v, Or.inr hv, hname⟩
  rcases rename_cases hlimit hv hname with ⟨hslot, rfl⟩ | ⟨-, hrange⟩
  · exact Or.inl ⟨hv, hslot⟩
  · exact Or.inr hrange

theorem Holds.spill {T : IndexSet .virtual} (H : g.Holds T)
    (hlimit : next + (g.core.temporaries slots next).length ≤ sizeLimit)
    (hslots : ∀ t ∈ T, t ∉ slots) (hold : ∀ t ∈ T, t ∈ T')
    (hnew : ∀ t : VirtualId, next ≤ t.val →
      t.val < next + (g.core.temporaries slots next).length → t ∈ T')
    (hnames : ∀ v, g.core.Names v → v ∈ T' → v ∈ T) : (g.spill slots next).Holds T' := by
  have hspilled : ∀ access v, v ∈ g.core.spilledOperands slots [access] →
      ∃ t ∈ T', renameBy (g.core.temporaries slots next) (.virtual v) = .virtual t := by
    intro access v hv
    have hmem := mem_named [access] (by cases access <;> simp) hv
    obtain ⟨k, hk, hname⟩ := renameBy_temporaries hlimit hmem
    have hlt : k < (g.core.temporaries slots next).length := by
      simpa [Instr.temporaries] using (List.getElem?_eq_some_iff.mp hk).1
    exact ⟨_, hnew _ (Nat.le_add_right _ _) (Nat.add_lt_add_left hlt next), hname⟩
  have hkept : ∀ t ∈ T, renameBy (g.core.temporaries slots next) (.virtual t) = .virtual t := by
    intro t ht
    exact (stands_temporaries g.core slots le_rfl hlimit).other t fun hmem =>
      hslots t ht (Instr.mem_spilledOperands.mp hmem).1
  refine ⟨?_, ?_, ?_⟩
  · intro p hp
    rcases List.mem_append.mp hp with hp | hp
    · obtain ⟨t, ht, hpt, hreads⟩ := H.reloads p hp
      exact ⟨t, hold t ht, hpt,
        (Instr.virtual_mem_reads_mapRegisters fun p => rfl).mpr ⟨t, hreads, hkept t ht⟩⟩
    · obtain ⟨v, hv, -, hname⟩ := mem_slotTemporaries.mp hp
      obtain ⟨t, ht, hname'⟩ := hspilled .use v hv
      obtain ⟨-, access, haccess, hmem⟩ := Instr.mem_spilledOperands.mp hv
      obtain rfl : access = .use := by simpa using haccess
      exact ⟨t, ht, hname.symm.trans hname', (Instr.virtual_mem_reads_mapRegisters
        fun p => rfl).mpr ⟨v, Instr.virtual_mem_reads.mpr hmem, hname'⟩⟩
  · intro p hp
    rcases List.mem_append.mp hp with hp | hp
    · obtain ⟨v, hv, -, hname⟩ := mem_slotTemporaries.mp hp
      obtain ⟨t, ht, hname'⟩ := hspilled .define v hv
      obtain ⟨-, access, haccess, hmem⟩ := Instr.mem_spilledOperands.mp hv
      obtain rfl : access = .define := by simpa using haccess
      exact ⟨t, ht, hname.symm.trans hname', (Instr.virtual_mem_writes_mapRegisters
        fun p => rfl).mpr ⟨v, Instr.virtual_mem_writes.mpr hmem, hname'⟩⟩
    · obtain ⟨t, ht, hpt, hwrites⟩ := H.stores p hp
      exact ⟨t, hold t ht, hpt,
        (Instr.virtual_mem_writes_mapRegisters fun p => rfl).mpr ⟨t, hwrites, hkept t ht⟩⟩
  · intro t ht hreads
    obtain ⟨v, hv, hname⟩ := (Instr.virtual_mem_reads_mapRegisters fun p => rfl).mp hreads
    simp only [Group.spill, List.map_append, List.mem_append]
    rcases rename_cases hlimit (Or.inl hv) hname with ⟨-, rfl⟩ | ⟨hslot, -⟩
    · exact Or.inl (H.loaded t (hnames t (Or.inl hv) ht) hv)
    · right
      obtain ⟨slot, hget⟩ := Option.isSome_iff_exists.mp
        (Std.ExtTreeMap.mem_iff_isSome_getElem?.mp hslot)
      refine List.mem_map.mpr ⟨(.virtual t, slot), mem_slotTemporaries.mpr
        ⟨v, ?_, hget, hname⟩, rfl⟩
      exact Instr.mem_spilledOperands.mpr ⟨hslot, .use, by simp, Instr.virtual_mem_reads.mp hv⟩

end

/-- **Different groups name different temporaries**, the new ones included. -/
theorem pairwise_spillAll {T T' : IndexSet .virtual} {lower next : Nat}
    {groups : List Group} (hlower : lower ≤ next)
    (hlimit : (spillAll slots next groups).2 ≤ sizeLimit)
    (hbelow : ∀ g ∈ groups, ∀ v, g.core.Names v → v.val < lower)
    (hold : ∀ t ∈ T', t ∈ T ∨ lower ≤ t.val)
    (h : groups.Pairwise fun g h => ∀ t ∈ T, ¬ (g.core.Names t ∧ h.core.Names t)) :
    (spillAll slots next groups).1.Pairwise
      fun g h => ∀ t ∈ T', ¬ (g.core.Names t ∧ h.core.Names t) := by
  induction groups generalizing next with
  | nil => exact List.Pairwise.nil
  | cons g rest ih =>
    obtain ⟨hhead, htail⟩ := List.pairwise_cons.mp h
    simp only [spillAll] at hlimit ⊢
    have hrest : next + (g.core.temporaries slots next).length ≤ sizeLimit :=
      (le_snd_spillAll slots _ rest).trans hlimit
    refine List.pairwise_cons.mpr ⟨?_, ih (by omega) hlimit
      (fun g' hg' => hbelow g' (.tail _ hg')) htail⟩
    rintro h' hh' t ht ⟨hg, hh⟩
    obtain ⟨g1, hg1, start, hstart, hlast, rfl⟩ := exists_of_mem_spillAll hh'
    have hg' := names_spill hrest hg
    have hh'' := names_spill (hlast.trans hlimit) hh
    -- an old name is below all new ones, and the new ones of two groups are apart
    rcases hg' with ⟨hg', -⟩ | hg' <;> rcases hh'' with ⟨hh'', -⟩ | hh''
    · have hlt := hbelow g (.head _) t hg'
      rcases hold t ht with ht | ht
      · exact hhead g1 hg1 t ht ⟨hg', hh''⟩
      · omega
    · have hlt := hbelow g (.head _) t hg'
      omega
    · have hlt := hbelow g1 (.tail _ hg1) t hh''
      omega
    · omega

end Group

end MxStar.Machine
