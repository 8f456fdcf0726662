import MxStar.Proofs.Flow.CompleteBody

/-!
# Well-formed flow graphs

`Function.WellFormed` is the shape of the graphs the later stages rely on.  A
complete body gets it by pruning: the blocks that are kept are closed under the
terminators because they are the reachable ones (`gather_closed`), and the edge
sets are derived from the terminators of what is kept (`get?_foldl_link`).  A
well-formed graph passes the check.
-/

namespace MxStar.Flow

/-! ## Reachable blocks -/

section

variable {next : BlockId → List BlockId}

theorem reachable_of_mem_gather (h : b ∈ gather next unseen pending) :
    ∃ a ∈ pending, Relation.ReflTransGen (fun b c => c ∈ next b) a b := by
  induction unseen, pending using gather.induct next with
  | case1 unseen => simp [gather] at h
  | case2 unseen c rest hc ih =>
    rw [gather, if_pos hc] at h
    rcases List.mem_cons.mp h with rfl | h
    · exact ⟨b, .head _, .refl⟩
    · obtain ⟨a, ha, hpath⟩ := ih h
      rcases List.mem_append.mp ha with ha | ha
      · exact ⟨c, .head _, .head ha hpath⟩
      · exact ⟨a, .tail _ ha, hpath⟩
  | case3 unseen c rest hc ih =>
    rw [gather, if_neg hc] at h
    obtain ⟨a, ha, hpath⟩ := ih h
    exact ⟨a, .tail _ ha, hpath⟩

/-- The pending blocks are gathered, and so is all that gathered blocks go to, as
far as it was unseen. -/
theorem gather_closed : (∀ b ∈ pending, b ∈ unseen → b ∈ gather next unseen pending) ∧
    ∀ b ∈ gather next unseen pending, ∀ c ∈ next b, c ∈ unseen →
      c ∈ gather next unseen pending := by
  induction unseen, pending using gather.induct next with
  | case1 unseen => simp [gather]
  | case2 unseen b rest hb ih =>
    obtain ⟨hpending, hclosed⟩ := ih
    have hrest : ∀ c ∈ next b ++ rest, c ∈ unseen → c ∈ gather next unseen (b :: rest) := by
      intro c hc hunseen
      rw [gather, if_pos hb]
      by_cases heq : c = b
      · exact heq ▸ (.head _)
      · exact .tail _ (hpending c hc ((List.mem_erase_of_ne heq).mpr hunseen))
    refine ⟨fun c hc hunseen => ?_, fun c hc d hd hunseen => ?_⟩
    · rcases List.mem_cons.mp hc with rfl | hc
      · rw [gather, if_pos hb]
        exact .head _
      · exact hrest c (List.mem_append_right _ hc) hunseen
    · rw [gather, if_pos hb] at hc
      rcases List.mem_cons.mp hc with rfl | hc
      · exact hrest d (List.mem_append_left _ hd) hunseen
      · rw [gather, if_pos hb]
        by_cases heq : d = b
        · exact heq ▸ (.head _)
        · exact .tail _ (hclosed c hc d hd ((List.mem_erase_of_ne heq).mpr hunseen))
  | case3 unseen b rest hb ih =>
    obtain ⟨hpending, hclosed⟩ := ih
    rw [gather, if_neg hb]
    refine ⟨fun c hc hunseen => ?_, hclosed⟩
    rcases List.mem_cons.mp hc with rfl | hc
    · exact absurd hunseen hb
    · exact hpending c hc hunseen

end

/-! ## Edge sets -/

/-- Blocks with the same code; the edge sets may differ. -/
structure Block.SameCode (b b' : Block) : Prop where
  label : b'.label = b.label
  instrs : b'.instrs = b.instrs
  terminator : b'.terminator = b.terminator
  finished : b'.finished = b.finished

namespace Function

theorem size_foldl_link (edges : List (BlockId × BlockId)) (blocks : Table .block Block) :
    (edges.foldl link blocks).size = blocks.size := by
  induction edges generalizing blocks with
  | nil => rfl
  | cons edge rest ih => simp [ih, link]

variable {id : BlockId} {b : Block}

theorem get?_foldl_link (edges : List (BlockId × BlockId)) {blocks : Table .block Block}
    (hb : blocks.get? id = some b) :
    ∃ b', (edges.foldl link blocks).get? id = some b' ∧ b.SameCode b' ∧
      (∀ c, c ∈ b'.successors ↔ c ∈ b.successors ∨ (id, c) ∈ edges) ∧
      ∀ c, c ∈ b'.predecessors ↔ c ∈ b.predecessors ∨ (c, id) ∈ edges := by
  induction edges generalizing blocks b with
  | nil => exact ⟨b, hb, ⟨rfl, rfl, rfl, rfl⟩, by simp, by simp⟩
  | cons edge rest ih =>
    obtain ⟨source, target⟩ := edge
    obtain ⟨d, hd, hcode, hsuccs, hpreds⟩ : ∃ d,
        (link blocks (source, target)).get? id = some d ∧ b.SameCode d ∧
        (∀ c, c ∈ d.successors ↔ c ∈ b.successors ∨ (id, c) = (source, target)) ∧
        ∀ c, c ∈ d.predecessors ↔ c ∈ b.predecessors ∨ (c, id) = (source, target) := by
      simp only [link, Table.get?_modify, hb]
      by_cases hs : source = id <;> by_cases ht : target = id <;>
        simp only [hs, ht, if_true, if_false, Option.map_some] <;>
        refine ⟨_, rfl, ⟨rfl, rfl, rfl, rfl⟩, fun c => ?_, fun c => ?_⟩ <;>
        simp only [Std.ExtTreeSet.mem_insert, Std.compare_eq_iff_eq, Prod.mk.injEq] <;> grind
    obtain ⟨b', hb', hcode', hsuccs', hpreds'⟩ := ih hd
    refine ⟨b', hb', ⟨?_, ?_, ?_, ?_⟩, fun c => ?_, fun c => ?_⟩
    · rw [hcode'.label, hcode.label]
    · rw [hcode'.instrs, hcode.instrs]
    · rw [hcode'.terminator, hcode.terminator]
    · rw [hcode'.finished, hcode.finished]
    · rw [hsuccs', hsuccs, List.mem_cons, or_assoc]
    · rw [hpreds', hpreds, List.mem_cons, or_assoc]

variable {f g : Function} {A : BlockId → Set RegisterId}

theorem mem_targets (hb : f.blocks.get? id = some b) (ht : b.terminator = some t) :
    c ∈ f.targets id ↔ c ∈ t.successors := by
  simp [targets, hb, Block.targets, ht]

theorem Draft.ends_of_mem_targets (h : f.Draft A) (hc : c ∈ f.targets id) :
    ∃ b t, f.blocks.get? id = some b ∧ c ∈ t.successors ∧ f.Ends A id b.instrs.toList t := by
  cases hb : f.blocks.get? id with
  | none => simp [targets, hb] at hc
  | some b =>
    cases ht : b.terminator with
    | none => simp [targets, hb, Block.targets, ht] at hc
    | some t => exact ⟨b, t, rfl, (mem_targets hb ht).mp hc, h.ends id b t hb ht⟩

theorem mem_orderedBlocks {blocks : List (BlockId × Block)} (h : f.orderedBlocks = .ok blocks) :
    (id, b) ∈ blocks ↔ id ∈ f.layout ∧ f.blocks.get? id = some b := by
  have hpairs := forall₂_orderedBlocks h
  constructor
  · intro hmem
    obtain ⟨id', hid', rfl, hb⟩ := hpairs.exists_of_mem_right hmem
    exact ⟨hid', hb⟩
  · rintro ⟨hid, hb⟩
    obtain ⟨⟨id', b'⟩, hmem, heq, hb'⟩ := hpairs.flip.exists_of_mem_right hid
    obtain rfl : id' = id := heq
    obtain rfl := Option.mem_unique hb hb'
    exact hmem

theorem mem_edges {edges : List (BlockId × BlockId)} (h : f.edges = .ok edges) {b : BlockId} :
    (b, c) ∈ edges ↔ b ∈ f.layout ∧ c ∈ f.targets b := by
  obtain ⟨blocks, hblocks, h⟩ := Except.bind_eq_ok.mp h
  simp only at h
  split at h
  · cases h
    simp only [List.mem_flatMap, List.mem_map, Prod.exists, Prod.mk.injEq,
      mem_orderedBlocks hblocks]
    constructor
    · rintro ⟨id, d, ⟨hid, hd⟩, target, htarget, rfl, rfl⟩
      exact ⟨hid, by simpa [targets, hd] using htarget⟩
    · rintro ⟨hb, hc⟩
      cases hd : f.blocks.get? b with
      | none => simp [targets, hd] at hc
      | some d => exact ⟨b, d, ⟨hb, hd⟩, c, by simpa [targets, hd] using hc, rfl, rfl⟩
  · cases h

theorem exists_orderedBlocks (h : ∀ id ∈ f.layout, id.val < f.blocks.size) :
    ∃ blocks, f.orderedBlocks = .ok blocks := by
  unfold orderedBlocks
  generalize f.layout = layout at h
  induction layout with
  | nil => exact ⟨[], rfl⟩
  | cons id rest ih =>
    obtain ⟨b, hb⟩ := Table.exists_get? (h id (.head _))
    obtain ⟨blocks, hblocks⟩ := ih fun id hid => h id (.tail _ hid)
    refine ⟨(id, b) :: blocks, ?_⟩
    rw [List.mapM_cons, Table.find_eq_ok.mpr hb, hblocks]
    rfl

section

variable (hlayout : ∀ id ∈ f.layout, id.val < f.blocks.size)
  (htargets : ∀ id ∈ f.layout, ∀ c ∈ f.targets id, c.val < f.blocks.size)
include hlayout htargets

theorem exists_edges : ∃ edges, f.edges = .ok edges := by
  obtain ⟨blocks, hblocks⟩ := exists_orderedBlocks hlayout
  rw [edges, hblocks]
  refine ⟨_, if_pos ?_⟩
  simp only [List.all_eq_true, List.mem_flatMap, List.mem_map, Prod.exists, decide_eq_true_eq]
  rintro edge ⟨id, b, hmem, target, htarget, rfl⟩
  obtain ⟨hid, hb⟩ := (mem_orderedBlocks hblocks).mp hmem
  exact htargets id hid target (by simpa [targets, hb] using htarget)

theorem exists_rebuildEdges :
    ∃ blocks, f.rebuildEdges = .ok { f with blocks } ∧ blocks.size = f.blocks.size ∧
      ∀ id b, f.blocks.get? id = some b → ∃ b', blocks.get? id = some b' ∧ b.SameCode b' ∧
        (∀ c, c ∈ b'.successors ↔ id ∈ f.layout ∧ c ∈ f.targets id) ∧
        ∀ c, c ∈ b'.predecessors ↔ c ∈ f.layout ∧ id ∈ f.targets c := by
  obtain ⟨edges, hedges⟩ := exists_edges hlayout htargets
  refine ⟨edges.foldl link (f.blocks.map Block.clearEdges), ?_, ?_, fun id b hb => ?_⟩
  · simp only [rebuildEdges, hedges, bind, Except.bind]
    rfl
  · rw [size_foldl_link, Table.size_map]
  · have hclear : (f.blocks.map Block.clearEdges).get? id = some b.clearEdges := by simp [hb]
    obtain ⟨b', hb', hcode, hsuccs, hpreds⟩ := get?_foldl_link edges hclear
    refine ⟨b', hb', ⟨hcode.label, hcode.instrs, hcode.terminator, hcode.finished⟩, fun c => ?_,
      fun c => ?_⟩
    · rw [hsuccs, mem_edges hedges]
      simp [Block.clearEdges]
    · rw [hpreds, mem_edges hedges]
      simp [Block.clearEdges]

end

theorem targets_eq_of_sameCode (hsize : g.blocks.size = f.blocks.size)
    (hblocks : ∀ id b, f.blocks.get? id = some b →
      ∃ b', g.blocks.get? id = some b' ∧ b.SameCode b') : g.targets = f.targets := by
  funext id
  cases hb : f.blocks.get? id with
  | some b =>
    obtain ⟨b', hb', hcode⟩ := hblocks id b hb
    simp [targets, hb, hb', Block.targets, hcode.terminator]
  | none =>
    have hnone : g.blocks.get? id = none := by
      rw [← Option.not_isSome_iff_eq_none, Table.get?_isSome, hsize, ← Table.get?_isSome, hb]
      simp
    simp [targets, hb, hnone]

/-! ## Well-formed graphs -/

/-- A laid-out block ends inside the layout, its edge sets are those of the
terminators, and it returns exactly if it is the exit. -/
structure Closed (f : Function) (id : BlockId) (b : Block) (t : Terminator) : Prop where
  targets : ∀ c ∈ t.successors, c ∈ f.layout
  successors : ∀ c, c ∈ b.successors ↔ c ∈ t.successors
  predecessors : ∀ c, c ∈ b.predecessors ↔ c ∈ f.layout ∧ id ∈ f.targets c
  returns : (∃ v, t = .ret v) ↔ id = f.exit

/-- The shape of a finished graph. -/
structure WellFormed (f : Function) : Prop where
  nodup : f.layout.Nodup
  first : f.layout.head? = some f.entry
  last : f.layout.getLast? = some f.exit
  closed : ∀ id ∈ f.layout, ∃ b t, f.blocks.get? id = some b ∧ b.terminator = some t ∧
    f.Closed id b t
  reachable : ∀ id ∈ f.layout, id ≠ f.exit →
    Relation.ReflTransGen (fun b c => c ∈ f.targets b) f.entry id

theorem WellFormed.check (h : f.WellFormed) : f.check = .ok () := by
  have hblock : ∀ id ∈ f.layout, f.checkBlock id = .ok () := by
    intro id hid
    obtain ⟨b, t, hb, ht, hclosed⟩ := h.closed id hid
    have hsets : Std.ExtTreeSet.ofList t.successors = b.successors := by
      refine Std.ExtTreeSet.ext_mem fun c => ?_
      simp [hclosed.successors]
    have hsources : ∀ sources : List BlockId, (∀ c ∈ sources, c ∈ f.layout ∧ id ∈ f.targets c) →
        f.allLaidOutSources id sources = .ok true := by
      intro sources hsources
      induction sources with
      | nil => rfl
      | cons c rest ih =>
        obtain ⟨hc, htarget⟩ := hsources c (.head _)
        obtain ⟨d, t', hd, ht', hclosed'⟩ := h.closed c hc
        have hmem : id ∈ d.successors :=
          (hclosed'.successors id).mpr ((mem_targets hd ht').mp htarget)
        have hsource : f.isLaidOutSource id c = .ok true := by
          simp only [isLaidOutSource, if_pos hc, Table.find_eq_ok.mpr hd, bind, Except.bind]
          simp [pure, Except.pure, hmem]
        rw [allLaidOutSources, hsource]
        exact ih fun c hc => hsources c (.tail _ hc)
    have hpreds := hsources b.predecessors.toList fun c hc =>
      (hclosed.predecessors c).mp (Std.ExtTreeSet.mem_toList.mp hc)
    simp only [checkBlock, Table.find_eq_ok.mpr hb, ht, bind, Except.bind, hpreds]
    simpa [hsets, pure, Except.pure] using hclosed.targets
  have hexit : f.exit ∈ f.layout := List.mem_of_getLast? h.last
  simp only [Function.check, h.first, hexit, if_true, bind, Except.bind]
  exact Except.forM_eq_ok.mpr hblock

/-! ## Pruning -/

/-- A finished function: a graph of the right shape in which the registers that
blocks count on are there. -/
structure Sound (f : Function) (A : BlockId → Set RegisterId) : Prop where
  wellFormed : f.WellFormed
  draft : f.Draft A
  entry_free : A f.entry = ∅

theorem Draft.of_sameCode (h : f.Draft A) (hgiven : g.given = f.given)
    (hregs : g.registers = f.registers) (hentry : g.entry = f.entry)
    (hexit : g.exit = f.exit) (hsize : g.blocks.size = f.blocks.size)
    (hblocks : ∀ id b, f.blocks.get? id = some b → ∃ b', g.blocks.get? id = some b' ∧
      b.SameCode b') :
    g.Draft A := by
  refine h.of_instrs hgiven hregs fun id b' hb' => ?_
  obtain ⟨b, hb⟩ := Table.exists_get? (hsize ▸ Table.lt_size_of_get? hb')
  obtain ⟨d, hd, hcode⟩ := hblocks id b hb
  obtain rfl := Option.mem_unique hb' hd
  refine ⟨b, hb, hcode.instrs, fun t ht => ?_, fun hfinished => ?_⟩
  · rw [hcode.terminator] at ht
    exact (h.ends id b t hb ht).mono (by simp [hgiven]) hsize.ge (fun _ _ => rfl)
      (Table.lt_size_of_get? hb) hentry hexit fun _ hr => hr
  · rw [hcode.finished] at hfinished
    rw [hcode.terminator]
    exact h.finished id b hb hfinished

def kept (f : Function) : List BlockId :=
  f.layout.filter fun b => b ∈ f.reachable || b == f.exit

theorem mem_kept : id ∈ f.kept ↔ id ∈ f.layout ∧ (id ∈ f.reachable ∨ id = f.exit) := by
  simp [kept]

structure TargetsExist (f : Function) : Prop where
  entry : f.entry.val < f.blocks.size
  target : ∀ id, ∀ c ∈ f.targets id, c.val < f.blocks.size

/-- **The search finds what can be reached**, whatever cycles there are. -/
theorem TargetsExist.mem_reachable (h : f.TargetsExist) {b : BlockId} :
    b ∈ f.reachable ↔ Relation.ReflTransGen (fun b c => c ∈ f.targets b) f.entry b := by
  have hall : ∀ c : BlockId, c.val < f.blocks.size → c ∈ f.blocks.indices := fun c hc =>
    (Table.mem_indices _ _).mpr hc
  constructor
  · intro hb
    obtain ⟨a, ha, hpath⟩ := reachable_of_mem_gather hb
    exact List.mem_singleton.mp ha ▸ hpath
  · intro hpath
    induction hpath with
    | refl => exact gather_closed.1 f.entry (.head _) (hall _ h.entry)
    | tail _ hc ih => exact gather_closed.2 _ ih _ hc (hall _ (h.target _ _ hc))

theorem TargetsExist.dropUnreachable (h : f.TargetsExist) :
    f.dropUnreachable = .ok { f with layout := f.kept } := by
  have hclosed : f.isClosed = true := by
    simp only [isClosed, List.all_cons, Bool.and_eq_true, decide_eq_true_eq, List.all_eq_true,
      List.mem_flatMap]
    refine ⟨h.entry, ?_⟩
    rintro c ⟨b, -, hc⟩
    exact h.target b c hc
  simp only [Function.dropUnreachable, hclosed, if_true]
  rfl

namespace Complete

variable {id : BlockId}

variable (h : f.Complete A)
include h

theorem lt_size (hid : id ∈ f.layout) : id.val < f.blocks.size :=
  (Table.mem_indices _ _).mp (h.laidOut.mem_iff.mp hid)

theorem mem_layout (hid : id.val < f.blocks.size) : id ∈ f.layout :=
  h.laidOut.mem_iff.mpr ((Table.mem_indices _ _).mpr hid)

theorem target_lt_size (hc : c ∈ f.targets id) : c.val < f.blocks.size := by
  obtain ⟨b, t, -, hc, hends⟩ := h.draft.ends_of_mem_targets hc
  exact hends.exists_target c hc

theorem entry_mem : f.entry ∈ f.layout := List.mem_of_mem_head? h.first

theorem targetsExist : f.TargetsExist := ⟨h.lt_size h.entry_mem, fun _ _ => h.target_lt_size⟩

theorem returns_iff {b : Block} (hb : f.blocks.get? id = some b) (ht : b.terminator = some t) :
    (∃ v, t = .ret v) ↔ id = f.exit := by
  constructor
  · rintro ⟨v, rfl⟩
    exact (h.draft.ends id b _ hb ht).leaves v rfl
  · rintro rfl
    obtain ⟨b', v, hb', hv⟩ := h.returns
    obtain rfl := Option.mem_unique hb hb'
    exact ⟨v, Option.mem_unique ht hv⟩

theorem kept_closed (hid : id ∈ f.kept) (hc : c ∈ f.targets id) : c ∈ f.kept := by
  obtain ⟨hlayout, hreached | rfl⟩ := mem_kept.mp hid
  · refine mem_kept.mpr ⟨h.mem_layout (h.target_lt_size hc), .inl ?_⟩
    exact h.targetsExist.mem_reachable.mpr (.tail (h.targetsExist.mem_reachable.mp hreached) hc)
  · obtain ⟨b, v, hb, hv⟩ := h.returns
    simp [mem_targets hb hv, Terminator.successors] at hc

theorem head?_kept : f.kept.head? = some f.entry := by
  obtain ⟨rest, hrest⟩ := List.head?_eq_some_iff.mp h.first
  have hentry : f.entry ∈ f.reachable := h.targetsExist.mem_reachable.mpr .refl
  simp [kept, hrest, hentry]

theorem getLast?_kept : f.kept.getLast? = some f.exit := by
  obtain ⟨rest, hrest⟩ := List.getLast?_eq_some_iff.mp h.last
  simp [kept, hrest]

theorem exists_rebuildEdges :
    ∃ g, ({ f with layout := f.kept } : Function).rebuildEdges = .ok g ∧ g.Sound A := by
  obtain ⟨blocks, hrebuild, hsize, hblocks⟩ := Function.exists_rebuildEdges
    (f := { f with layout := f.kept }) (fun id hid => h.lt_size (mem_kept.mp hid).1)
    fun id _ c hc => h.target_lt_size hc
  have htargets : ({ f with layout := f.kept, blocks } : Function).targets = f.targets :=
    targets_eq_of_sameCode hsize fun id b hb =>
      (hblocks id b hb).imp fun _ hb' => ⟨hb'.1, hb'.2.1⟩
  refine ⟨_, hrebuild, ⟨?_, h.head?_kept, h.getLast?_kept, ?_, ?_⟩, ?_, h.entry_free⟩
  · exact (h.laidOut.nodup_iff.mpr (Table.nodup_indices _)).filter _
  · intro id hid
    obtain ⟨b, hb⟩ := Table.exists_get? (h.lt_size (mem_kept.mp hid).1)
    obtain ⟨t, ht⟩ := Option.isSome_iff_exists.mp (h.ended id b hb)
    obtain ⟨b', hb', hcode, hsuccs, hpreds⟩ := hblocks id b hb
    refine ⟨b', t, hb', hcode.terminator.trans ht, ?_, fun c => ?_, fun c => ?_,
      h.returns_iff hb ht⟩
    · exact fun c hc => h.kept_closed hid ((mem_targets hb ht).mpr hc)
    · rw [hsuccs, ← mem_targets hb ht]
      exact and_iff_right hid
    · rw [hpreds, htargets]
      rfl
  · intro id hid hne
    obtain ⟨-, hreached⟩ := mem_kept.mp hid
    rw [htargets]
    exact h.targetsExist.mem_reachable.mp (hreached.resolve_right hne)
  · refine h.draft.of_sameCode rfl rfl rfl rfl hsize fun id b hb => ?_
    obtain ⟨b', hb', hcode, -⟩ := hblocks id b hb
    exact ⟨b', hb', hcode⟩

end Complete

end Function

end MxStar.Flow
