import MxStar.Proofs.Flow.WellFormed

/-!
# What pruning leaves

Pruning a function whose entry and targets exist leaves the blocks of the layout that can be
reached from the entry, and the exit (`Function.prune_keeps_reachable`).  The edge sets are then
those of the terminators in the new layout, for the blocks that are not laid out as well, whatever
they were before.  A second time nothing is left to do, because neither the terminators nor what
they reach have changed.

A laid-out exit is kept whether or not it can be reached, so it has to exist too: else the edges
cannot be derived (`Function.prune_astray`).
-/

namespace MxStar.Flow

namespace Function

variable {f g : Function}

/-- The edge sets of a block are those of the terminators in the layout. -/
structure RecordsEdges (f : Function) (id : BlockId) (b : Block) : Prop where
  successors : ∀ c, c ∈ b.successors ↔ id ∈ f.layout ∧ c ∈ f.targets id
  predecessors : ∀ c, c ∈ b.predecessors ↔ c ∈ f.layout ∧ id ∈ f.targets c

/-- The second function is the first without the blocks that cannot be reached. -/
structure Prunes (f g : Function) : Prop where
  /-- Only layout and blocks differ -/
  rest : g = { f with layout := g.layout, blocks := g.blocks }
  layout : ∃ keep : BlockId → Bool, g.layout = f.layout.filter keep ∧ ∀ b, keep b = true ↔
    Relation.ReflTransGen (fun b c => c ∈ f.targets b) f.entry b ∨ b = f.exit
  size : g.blocks.size = f.blocks.size
  blocks : ∀ id b, f.blocks.get? id = some b →
    ∃ b', g.blocks.get? id = some b' ∧ b.SameCode b' ∧ g.RecordsEdges id b'

theorem RecordsEdges.eq_of_sameCode {id : BlockId} (h : f.RecordsEdges id b)
    (h' : f.RecordsEdges id b') (hcode : b.SameCode b') : b' = b := by
  have hsuccs : b'.successors = b.successors :=
    Std.ExtTreeSet.ext_mem fun c => (h'.successors c).trans (h.successors c).symm
  have hpreds : b'.predecessors = b.predecessors :=
    Std.ExtTreeSet.ext_mem fun c => (h'.predecessors c).trans (h.predecessors c).symm
  obtain ⟨hlabel, hinstrs, hterm, hfinished⟩ := hcode
  cases b
  cases b'
  simp only at *
  simp only [*]

theorem Prunes.targets (h : f.Prunes g) : g.targets = f.targets :=
  targets_eq_of_sameCode h.size fun id b hb =>
    (h.blocks id b hb).imp fun _ hb' => ⟨hb'.1, hb'.2.1⟩

theorem TargetsExist.exists_prunes (h : f.TargetsExist)
    (hexit : f.exit ∈ f.layout → f.exit.val < f.blocks.size) :
    ∃ g, f.prune = .ok g ∧ f.Prunes g ∧ g.layout = f.kept := by
  have hlt : ∀ id ∈ f.kept, id.val < f.blocks.size := by
    intro id hid
    obtain ⟨hlaid, hreached | rfl⟩ := mem_kept.mp hid
    · cases h.mem_reachable.mp hreached with
      | refl => exact h.entry
      | tail _ hc => exact h.target _ _ hc
    · exact hexit hlaid
  obtain ⟨blocks, hrebuild, hsize, hblocks⟩ := exists_rebuildEdges
    (f := { f with layout := f.kept }) hlt fun id _ c hc => h.target id c hc
  have htargets : ({ f with layout := f.kept, blocks } : Function).targets = f.targets :=
    targets_eq_of_sameCode hsize fun id b hb =>
      (hblocks id b hb).imp fun _ hb' => ⟨hb'.1, hb'.2.1⟩
  refine ⟨{ f with layout := f.kept, blocks }, ?_, ⟨rfl, ?_, hsize, fun id b hb => ?_⟩, rfl⟩
  · rw [prune, h.dropUnreachable]
    exact hrebuild
  · refine ⟨_, rfl, fun b => ?_⟩
    simp [← h.mem_reachable]
  · obtain ⟨b', hb', hcode, hsuccs, hpreds⟩ := hblocks id b hb
    refine ⟨b', hb', hcode, ?_, ?_⟩ <;> simp only [htargets]
    exacts [hsuccs, hpreds]

/-- To derive the edges, every block that is kept is looked up, and so is a laid-out exit. -/
theorem TargetsExist.exit_lt_of_prune (h : f.TargetsExist) (hprune : f.prune = .ok g)
    (hexit : f.exit ∈ f.layout) : f.exit.val < f.blocks.size := by
  obtain ⟨kept, hkept, hrebuild⟩ := Except.bind_eq_ok.mp hprune
  obtain rfl := Except.ok.inj (h.dropUnreachable.symm.trans hkept)
  obtain ⟨edges, hedges, -⟩ := Except.bind_eq_ok.mp hrebuild
  obtain ⟨blocks, hblocks, -⟩ := Except.bind_eq_ok.mp hedges
  obtain ⟨k, hk⟩ := List.getElem?_of_mem (mem_kept.mpr ⟨hexit, .inr rfl⟩)
  obtain ⟨q, -, -, hq⟩ := (forall₂_orderedBlocks hblocks).exists_of_getElem? hk
  exact Table.lt_size_of_get? hq

theorem Prunes.prune_eq (h : f.Prunes g) (hf : f.TargetsExist)
    (hexit : f.exit ∈ f.layout → f.exit.val < f.blocks.size) : g.prune = .ok g := by
  obtain ⟨keep, hlayout, hkeep⟩ := h.layout
  have hentry : g.entry = f.entry := by rw [h.rest]
  have hexit' : g.exit = f.exit := by rw [h.rest]
  have hg : g.TargetsExist := ⟨by rw [hentry, h.size]; exact hf.entry, by
    rw [h.targets, h.size]
    exact hf.target⟩
  have hlaid : ∀ id ∈ g.layout, id ∈ f.layout := by
    rw [hlayout]
    exact fun id hid => List.mem_of_mem_filter hid
  obtain ⟨g', hprune, hg', hkept⟩ := hg.exists_prunes (by
    rw [hexit', h.size]
    exact fun hmem => hexit (hlaid _ hmem))
  -- the same blocks are kept
  have hsame : g'.layout = g.layout := by
    rw [hkept, kept, List.filter_eq_self]
    intro id hid
    rw [hlayout] at hid
    have hreached := (hkeep id).mp (List.of_mem_filter hid)
    simpa [hg.mem_reachable, h.targets, hentry, hexit'] using hreached
  -- and a block is determined by its code and the terminators of the layout
  have hblocks : g'.blocks = g.blocks := by
    refine Table.ext_get? fun id => ?_
    cases hb' : g.blocks.get? id with
    | none =>
      rw [← Option.not_isSome_iff_eq_none, Table.get?_isSome] at hb' ⊢
      rwa [hg'.size]
    | some b' =>
      obtain ⟨b, hb⟩ := Table.exists_get? (h.size ▸ Table.lt_size_of_get? hb')
      obtain ⟨c, hc, -, hrecords⟩ := h.blocks id b hb
      obtain rfl := Option.mem_unique hb' hc
      obtain ⟨d, hd, hcode, hrecords'⟩ := hg'.blocks id b' hb'
      have hrecords' : g.RecordsEdges id d :=
        ⟨by simpa only [hsame, hg'.targets] using hrecords'.successors,
          by simpa only [hsame, hg'.targets] using hrecords'.predecessors⟩
      rw [hd, hrecords.eq_of_sameCode hrecords' hcode]
  rw [hprune, hg'.rest, hsame, hblocks]

/-- **Pruning keeps exactly what can be reached.**  If the entry, the targets of all terminators and
a laid-out exit exist, pruning succeeds; it leaves the reachable blocks of the layout and the exit,
in their order, with their code and with the edges of what is left; and to prune again changes
nothing. -/
theorem prune_keeps_reachable (hrange : f.TargetsExist)
    (hexit : f.exit ∈ f.layout → f.exit.val < f.blocks.size) :
    ∃ g, f.prune = .ok g ∧ f.Prunes g ∧ g.prune = .ok g := by
  obtain ⟨g, hprune, hprunes, -⟩ := hrange.exists_prunes hexit
  exact ⟨g, hprune, hprunes, hprunes.prune_eq hrange hexit⟩

/-- A block that goes to the exit and one that is never entered, the recorded predecessor of the
exit. -/
def detour : Function where
  name := "detour"
  returnType := .void
  blocks := ⟨#[
    { label := "entry", terminator := some (.jump ⟨1⟩) },
    { label := "exit"
      terminator := some (.ret none)
      predecessors := Std.ExtTreeSet.ofList [(⟨2⟩ : BlockId)] },
    { label := "dead", terminator := some (.jump ⟨1⟩) }]⟩
  layout := [⟨0⟩, ⟨2⟩, ⟨1⟩]
  exit := ⟨1⟩

theorem eq_of_mem_targets_detour {id : BlockId} (h : c ∈ detour.targets id) : c = ⟨1⟩ := by
  rcases id with ⟨_ | _ | _ | n⟩ <;>
    simp_all [targets, detour, Table.get?, Block.targets, Terminator.successors]

/-- The block that is never entered goes. -/
theorem prune_keeps_reachable_detour : detour.TargetsExist ∧ ∃ g, detour.prune = .ok g ∧
    detour.Prunes g ∧ g.prune = .ok g ∧ g.layout = [⟨0⟩, ⟨1⟩] := by
  have hrange : detour.TargetsExist :=
    ⟨by decide, fun id c hc => eq_of_mem_targets_detour hc ▸ by decide⟩
  obtain ⟨g, hprune, hprunes, hagain⟩ := prune_keeps_reachable hrange (by decide)
  refine ⟨hrange, g, hprune, hprunes, hagain, ?_⟩
  obtain ⟨keep, hlayout, hkeep⟩ := hprunes.layout
  have hentry : keep ⟨0⟩ = true := (hkeep _).mpr (.inl .refl)
  have hexit : keep ⟨1⟩ = true := (hkeep _).mpr (.inr rfl)
  have hdead : keep ⟨2⟩ = false := by
    rw [← Bool.not_eq_true, hkeep]
    rintro (hpath | heq)
    · cases hpath with
      | tail _ hc => exact absurd (eq_of_mem_targets_detour hc) (by decide)
    · exact absurd heq (by decide)
  rw [hlayout]
  simp [detour, hentry, hexit, hdead]

/-- A function with an exit in its layout that is none of its blocks. -/
def astray : Function where
  name := "astray"
  returnType := .void
  blocks := ⟨#[{ label := "entry", terminator := some (.ret none) }]⟩
  layout := [⟨0⟩, ⟨7⟩]
  exit := ⟨7⟩

/-- The entry exists and goes nowhere, but the exit stays in the layout and has no edges. -/
theorem prune_astray : astray.TargetsExist ∧ ∀ g, astray.prune ≠ .ok g := by
  have hrange : astray.TargetsExist := by
    refine ⟨by decide, fun id c hc => ?_⟩
    rcases id with ⟨_ | n⟩ <;>
      simp_all [targets, astray, Table.get?, Block.targets, Terminator.successors]
  exact ⟨hrange, fun g hg => absurd (hrange.exit_lt_of_prune hg (by decide)) (by decide)⟩

end Function

end MxStar.Flow
