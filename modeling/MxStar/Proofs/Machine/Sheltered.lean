import MxStar.Proofs.Machine.Coloring
import MxStar.Proofs.Machine.Temporaries

/-!
# Functions whose temporaries are sheltered

A function is sheltered if its code is made of groups and no two groups name the
same temporary.  A function without temporaries is (`sheltered_start`), and every
round of spilling leaves one again (`Sheltered.spill`).

A temporary then meets at most one other temporary, the one that is read together
with it, and of the physical registers only those that the code reads
(`Sheltered.degree_le`).
-/

namespace MxStar.Machine

variable {l : Liveness} {t : VirtualId} {f : Function}

theorem Function.mem_code (hb : f.blocks.get? b = some block) (hi : i ∈ block.code) :
    i ∈ f.code := by
  refine List.mem_flatMap.mpr ⟨block, ?_, hi⟩
  simp only [Table.get?] at hb
  exact List.mem_of_getElem? (i := b.val) (by simpa using hb)

theorem mem_readRegisters_of_mem_liveIn (h : Liveness.compute f = .ok l)
    (hr : r ∈ (l.block b).liveIn) : r ∈ Liveness.readRegisters f := by
  refine within_of_compute h (S := fun _ r => r ∈ Liveness.readRegisters f) ?_ hr
  intro b block hb out hout r hr
  rcases mem_uses_or_mem_of_mem_liveBefore hr with hr | hr
  · obtain ⟨i, hi, hr⟩ := List.mem_flatMap.mp hr
    exact List.mem_flatMap.mpr ⟨i, Function.mem_code hb hi, hr⟩
  · obtain ⟨-, -, hr⟩ := hout r hr
    exact hr

theorem mem_readRegisters_of_clashes (h : Liveness.compute f = .ok l) (hclash : Clashes f l d r) :
    r ∈ Liveness.readRegisters f := by
  obtain ⟨b, block, hb, hclash⟩ := hclash
  rcases (mem_of_codeClash hclash).2 with hr | hr
  · obtain ⟨i, hi, hr⟩ := List.mem_flatMap.mp hr
    exact List.mem_flatMap.mpr ⟨i, Function.mem_code hb hi, hr⟩
  · obtain ⟨target, -, hr⟩ := ((liveSolution_of_compute h).mem_liveOut hb r).mp hr
    exact mem_readRegisters_of_mem_liveIn h hr

/-- The code is made of groups, and no two of them name the same temporary. -/
structure Sheltered (f : Function) (groups : List (List Group)) : Prop where
  code : f.blocks.entries.toList.map Block.code = groups.map fun gs => gs.flatMap Group.code
  holds : ∀ gs ∈ groups, ∀ g ∈ gs, g.Holds f.unspillable
  apart : groups.flatten.Pairwise fun g h =>
    ∀ t ∈ f.unspillable, ¬ (g.core.Names t ∧ h.core.Names t)

theorem sheltered_start (h : f.unspillable = ∅) :
    Sheltered f (f.blocks.entries.toList.map fun b => b.code.map fun i => { core := i }) where
  code := by
    simp [List.flatMap_map, Group.code, List.flatMap_singleton']
  holds := by
    intro gs hgs g hg
    obtain ⟨block, -, rfl⟩ := List.mem_map.mp hgs
    obtain ⟨i, -, rfl⟩ := List.mem_map.mp hg
    exact ⟨by simp, by simp, by simp [h]⟩
  apart := by
    rw [h]
    exact List.pairwise_of_forall fun g h t ht => by simp at ht

namespace Sheltered

variable {f : Function} {groups : List (List Group)}

variable (S : Sheltered f groups)
include S

theorem exists_groups (hb : f.blocks.get? b = some block) :
    ∃ gs ∈ groups, block.code = gs.flatMap Group.code := by
  have hget : (f.blocks.entries.toList.map Block.code)[b.val]? = some block.code := by
    have hb' : f.blocks.entries.toList[b.val]? = some block := by simpa [Table.get?] using hb
    simp [hb']
  rw [S.code, List.getElem?_map, Option.map_eq_some_iff] at hget
  obtain ⟨gs, hgs, heq⟩ := hget
  exact ⟨gs, List.mem_of_getElem? hgs, heq.symm⟩

theorem mem_inUse (hg : g ∈ groups.flatten) (hv : g.core.Names v) : v ∈ f.inUse := by
  obtain ⟨gs, hgs, hg⟩ := List.mem_flatten.mp hg
  have hcode : gs.flatMap Group.code ∈ f.blocks.entries.toList.map Block.code := by
    rw [S.code]
    exact List.mem_map_of_mem hgs
  obtain ⟨block, hblock, heq⟩ := List.mem_map.mp hcode
  refine Function.mem_inUse.mpr ⟨block, hblock, g.core, ?_, hv⟩
  rw [heq]
  exact List.mem_flatMap.mpr ⟨g, hg, by simp [Group.code]⟩

/-! ## Neighbours of temporaries -/

variable (h : Liveness.compute f = .ok l)
include h

theorem not_mem_liveOut (hb : f.blocks.get? b = some block) (ht : t ∈ f.unspillable) :
    .virtual t ∉ (l.block b).liveOut := by
  intro hlive
  obtain ⟨target, -, hlive⟩ := ((liveSolution_of_compute h).mem_liveOut hb _).mp hlive
  refine within_of_compute h (S := fun _ r => r ≠ .virtual t) ?_ hlive rfl
  intro b block hb out hout r hr heq
  subst heq
  obtain ⟨gs, hgs, hcode⟩ := S.exists_groups hb
  rw [hcode] at hr
  refine Group.not_mem_liveBefore_flatMap (S.holds gs hgs) ht (fun hmem => ?_) hr
  obtain ⟨-, -, hne⟩ := hout _ hmem
  exact hne rfl

theorem exists_of_clashes (ht : t ∈ f.unspillable) (hclash : Clashes f l d (.virtual t)) :
    ∃ g ∈ groups.flatten, ∃ u ∈ f.unspillable, d = .virtual u ∧ .virtual u ∈ g.core.reads ∧
      .virtual t ∈ g.core.reads := by
  obtain ⟨b, block, hb, hclash⟩ := hclash
  obtain ⟨gs, hgs, hcode⟩ := S.exists_groups hb
  rw [hcode] at hclash
  obtain ⟨g, hg, hmates⟩ := Group.exists_of_codeClash_flatMap (S.holds gs hgs) ht
    (S.not_mem_liveOut h hb ht) hclash
  exact ⟨g, List.mem_flatten.mpr ⟨gs, hgs, hg⟩, hmates⟩

theorem exists_of_interferes {t : VirtualId} (ht : t ∈ f.unspillable) (hu : u ∈ f.unspillable)
    (hint : (Interference.build f l).interferes t (.virtual u)) :
    ∃ g ∈ groups.flatten, .virtual t ∈ g.core.reads ∧ .virtual u ∈ g.core.reads := by
  rcases (Interference.interferes_build f l t (.virtual u)).mp hint with hclash | hclash
  · obtain ⟨g, hg, v, -, hv, hreads, hreads'⟩ := S.exists_of_clashes h hu hclash
    obtain rfl := Register.virtual.inj hv
    exact ⟨g, hg, hreads, hreads'⟩
  · obtain ⟨g, hg, v, -, hv, hreads, hreads'⟩ := S.exists_of_clashes h ht hclash
    obtain rfl := Register.virtual.inj hv
    exact ⟨g, hg, hreads', hreads⟩

theorem mem_readRegisters (ht : t ∈ f.unspillable)
    (hint : (Interference.build f l).interferes t (.physical p)) :
    .physical p ∈ Liveness.readRegisters f := by
  rcases (Interference.interferes_build f l t (.physical p)).mp hint with hclash | hclash
  · exact mem_readRegisters_of_clashes h hclash
  · obtain ⟨-, -, u, -, hu, -⟩ := S.exists_of_clashes h ht hclash
    simp at hu

theorem exists_mates (ht : t ∈ f.unspillable) :
    ∃ mates : List Register, mates.length ≤ 1 ∧ ∀ u ∈ f.unspillable,
      (Interference.build f l).interferes t (.virtual u) → .virtual u ∈ mates := by
  by_cases hex : ∃ u ∈ f.unspillable, (Interference.build f l).interferes t (.virtual u)
  · obtain ⟨u, hu, hint⟩ := hex
    obtain ⟨g, hg, hreads, -⟩ := S.exists_of_interferes h ht hu hint
    refine ⟨g.core.reads.filter (· ≠ .virtual t), Instr.length_reads_filter_le hreads, ?_⟩
    intro u' hu' hint'
    obtain ⟨g', hg', hreads', hmate⟩ := S.exists_of_interferes h ht hu' hint'
    -- both groups name the temporary, so they are one
    obtain rfl : g = g' := by
      by_contra hne
      have : Std.Symm fun g h : Group => ∀ t ∈ f.unspillable, ¬ (g.core.Names t ∧ h.core.Names t) :=
        ⟨fun g h hgh t ht hboth => hgh t ht hboth.symm⟩
      exact S.apart.forall hg hg' hne t ht ⟨Or.inl hreads, Or.inl hreads'⟩
    have hne : u' ≠ t := by
      rintro rfl
      rcases (Interference.interferes_build f l u' (.virtual u')).mp hint' with hclash | hclash
      all_goals
        obtain ⟨-, -, -, -, -, -, -, -, -, hne⟩ := hclash
        exact hne rfl
    simpa [hne] using hmate
  · exact ⟨[], by simp, fun u hu hint => absurd ⟨u, hu, hint⟩ hex⟩

/-- **A temporary has few neighbours** when only temporaries are left: one
temporary, and the registers of the palette that the code reads. -/
theorem degree_le {read : List Physical}
    (hread : ∀ p, .physical p ∈ Liveness.readRegisters f → p ∈ read)
    (hremaining : ∀ w ∈ remaining, w ∈ f.unspillable) (ht : t ∈ f.unspillable)
    (palette : List Physical) :
    (Interference.build f l).degree palette remaining t ≤
      1 + (palette.filter (· ∈ read)).length := by
  obtain ⟨mates, hlen, hmates⟩ := S.exists_mates h ht
  have hnodup : ((Interference.build f l).neighbours t).toList.Nodup :=
    Std.ExtTreeSet.distinct_toList.imp fun hne heq => hne (Std.compare_eq_iff_eq.mpr heq)
  have hlist : (mates ++ (palette.filter (· ∈ read)).map Register.physical).length ≤
      1 + (palette.filter (· ∈ read)).length := by
    simpa using hlen
  rw [Interference.degree, List.countP_eq_length_filter]
  refine (List.subperm_of_subset (hnodup.filter _) fun r hr => ?_).length_le.trans hlist
  obtain ⟨hmem, hcounts⟩ := List.mem_filter.mp hr
  have hint : (Interference.build f l).interferes t r := by
    simpa [Interference.interferes] using Std.ExtTreeSet.mem_toList.mp hmem
  rw [List.mem_append]
  cases r with
  | virtual w =>
    exact Or.inl (hmates w (hremaining w (Std.ExtTreeSet.contains_iff_mem.mp hcounts)) hint)
  | physical p =>
    right
    simpa using ⟨by simpa using hcounts, hread p (S.mem_readRegisters h ht hint)⟩

end Sheltered

/-! ## Spilling -/

theorem mem_allocateSlots {frame : Frame} :
    v ∈ (allocateSlots frame registers).2 ↔ v ∈ registers := by
  induction registers using List.reverseRecOn with
  | nil => simp [allocateSlots]
  | append_singleton registers w ih =>
    rw [allocateSlots_concat, Std.ExtTreeMap.mem_insert, Std.compare_eq_iff_eq, ih, List.mem_append,
      List.mem_singleton, or_comm, eq_comm]

theorem Function.mem_unspillable_spill (hlimit : (f.spill registers).virtuals ≤ sizeLimit) :
    t ∈ (f.spill registers).unspillable ↔
      t ∈ f.unspillable ∨ f.virtuals ≤ t.val ∧ t.val < (f.spill registers).virtuals := by
  have hle := f.virtuals_le_spill registers
  have hadded : t ∈ (List.range' f.virtuals ((f.spill registers).virtuals - f.virtuals)).map
      Index.ofNat ↔ f.virtuals ≤ t.val ∧ t.val < (f.spill registers).virtuals := by
    simp only [List.mem_map, List.mem_range'_1, Index.ofNat]
    constructor
    · rintro ⟨n, ⟨hlower, hupper⟩, rfl⟩
      rw [Nat.mod_eq_of_lt (by omega)]
      exact ⟨hlower, show n < _ by omega⟩
    · intro ht
      exact ⟨t.val, by omega, by rw [Nat.mod_eq_of_lt (by omega)]⟩
  rw [← hadded, ← List.contains_iff_mem]
  exact Std.ExtTreeSet.mem_insertMany_list

namespace Group

def spillNested (slots : SpillSlots) (next : Nat) : List (List Group) → List (List Group) × Nat
  | [] => ([], next)
  | gs :: rest =>
    let (spilled, next) := spillAll slots next gs
    let (others, last) := spillNested slots next rest
    (spilled :: others, last)

theorem flatten_spillNested (slots : SpillSlots) (next : Nat) (groups : List (List Group)) :
    ((spillNested slots next groups).1.flatten, (spillNested slots next groups).2) =
      spillAll slots next groups.flatten := by
  induction groups generalizing next with
  | nil => rfl
  | cons gs rest ih => simp [spillNested, spillAll_append, ← ih]

theorem spillBlocks_code {blocks : List Block} (H : ∀ gs ∈ groups, ∀ g ∈ gs, g.Holds T)
    (hslots : ∀ t ∈ T, t ∉ slots)
    (hcode : blocks.map Block.code = groups.map fun gs => gs.flatMap Group.code) (next : Nat) :
    (spillBlocks slots next blocks).1.map Block.code =
        (spillNested slots next groups).1.map (fun gs => gs.flatMap Group.code) ∧
      (spillBlocks slots next blocks).2 = (spillNested slots next groups).2 := by
  induction blocks generalizing groups next with
  | nil =>
    obtain rfl : groups = [] := by simpa using hcode.symm
    exact ⟨rfl, rfl⟩
  | cons block blocks ih =>
    cases groups with
    | nil => simp at hcode
    | cons gs rest =>
      simp only [List.map_cons, List.cons.injEq] at hcode
      have hfirst := spillCode_flatMap_code (H gs (.head _)) hslots next
      rw [← hcode.1] at hfirst
      obtain ⟨hrest, hlast⟩ := ih (fun gs hgs => H gs (.tail _ hgs)) hcode.2
        (spillAll slots next gs).2
      simp only [spillBlocks, spillNested, hfirst, List.map_cons]
      exact ⟨by rw [hrest], hlast⟩

end Group

theorem Sheltered.spill (S : Sheltered f groups) (hbelow : ∀ v ∈ f.inUse, v.val < f.virtuals)
    (hregs : ∀ v ∈ registers, v ∉ f.unspillable)
    (hlimit : (f.spill registers).virtuals ≤ sizeLimit) :
    ∃ groups', Sheltered (f.spill registers) groups' := by
  have hslots : ∀ t ∈ f.unspillable, t ∉ (allocateSlots f.frame registers).2 := fun t ht hmem =>
    hregs t (mem_allocateSlots.mp hmem) ht
  have hnames : ∀ g ∈ groups.flatten, ∀ v, g.core.Names v → v.val < f.virtuals := fun g hg v hv =>
    hbelow v (S.mem_inUse hg hv)
  obtain ⟨hcode, hlast⟩ := Group.spillBlocks_code S.holds hslots S.code f.virtuals
  have hvirts : (f.spill registers).virtuals =
      (Group.spillAll (allocateSlots f.frame registers).2 f.virtuals groups.flatten).2 := by
    rw [← Group.flatten_spillNested]
    exact hlast
  have hflatten : (Group.spillNested (allocateSlots f.frame registers).2 f.virtuals
    groups).1.flatten =
      (Group.spillAll (allocateSlots f.frame registers).2 f.virtuals groups.flatten).1 :=
    congrArg Prod.fst (Group.flatten_spillNested _ _ _)
  refine ⟨(Group.spillNested (allocateSlots f.frame registers).2 f.virtuals groups).1, ?_, ?_, ?_⟩
  · simpa [Function.spill] using hcode
  · intro gs hgs g' hg'
    have hmem := List.mem_flatten.mpr ⟨gs, hgs, hg'⟩
    rw [hflatten] at hmem
    obtain ⟨g, hg, start, hstart, hend, rfl⟩ := Group.exists_of_mem_spillAll hmem
    obtain ⟨gs0, hgs0, hg0⟩ := List.mem_flatten.mp hg
    rw [← hvirts] at hend
    refine (S.holds gs0 hgs0 g hg0).spill (hend.trans hlimit) hslots ?_ ?_ ?_
    · intro t ht
      exact (Function.mem_unspillable_spill hlimit).mpr (Or.inl ht)
    · intro t hlower hupper
      exact (Function.mem_unspillable_spill hlimit).mpr (Or.inr ⟨by omega, by omega⟩)
    · intro v hv ht
      rcases (Function.mem_unspillable_spill hlimit).mp ht with ht | ⟨hlower, -⟩
      · exact ht
      · have := hnames g hg v hv
        omega
  · rw [hflatten]
    refine Group.pairwise_spillAll le_rfl (hvirts ▸ hlimit) hnames ?_ S.apart
    intro t ht
    exact ((Function.mem_unspillable_spill hlimit).mp ht).imp_right And.left

end MxStar.Machine
