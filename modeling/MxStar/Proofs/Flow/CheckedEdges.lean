import MxStar.Proofs.Flow.WellFormed

/-!
# What the check tells about edges

A checked function has the successor sets that its terminators say, and its predecessor sets hold
no block but those that go there.  The check does not ask that they hold all of these: it walks
over the recorded predecessors of a block, not over the blocks that go to it.  So to derive the
edges afresh changes no successor set of a laid-out block, and it changes no predecessor set just
if none lacks a block (`Function.exists_rebuildEdges_of_check`).
-/

namespace MxStar.Flow

namespace Function

variable {f : Function}

theorem laidOutSource_of_isLaidOutSource (h : f.isLaidOutSource target source = .ok true) :
    source ∈ f.layout ∧ ∃ b, f.blocks.get? source = some b ∧ target ∈ b.successors := by
  simp only [isLaidOutSource] at h
  split at h
  · rename_i hlaid
    obtain ⟨b, hb, h⟩ := Except.bind_eq_ok.mp h
    exact ⟨hlaid, b, Table.find_eq_ok.mp hb, Std.ExtTreeSet.contains_iff_mem.mp (Except.ok.inj h)⟩
  · cases h

theorem laidOutSource_of_allLaidOutSources (h : f.allLaidOutSources target sources = .ok true) :
    ∀ c ∈ sources, c ∈ f.layout ∧ ∃ b, f.blocks.get? c = some b ∧ target ∈ b.successors := by
  induction sources with
  | nil => simp
  | cons source rest ih =>
    obtain ⟨first, hfirst, h⟩ := Except.bind_eq_ok.mp h
    cases first with
    | false => cases h
    | true =>
      rintro c (_ | ⟨_, hc⟩)
      · exact laidOutSource_of_isLaidOutSource hfirst
      · exact ih h c hc

/-- A laid-out block ends inside the layout, its successors are those of its terminator, and each
of its predecessors is a laid-out block that has it as a successor. -/
structure Consistent (f : Function) (id : BlockId) (b : Block) : Prop where
  targets : ∀ c ∈ f.targets id, c ∈ f.layout
  successors : ∀ c, c ∈ b.successors ↔ c ∈ f.targets id
  predecessors : ∀ c ∈ b.predecessors,
    c ∈ f.layout ∧ ∃ d, f.blocks.get? c = some d ∧ id ∈ d.successors

theorem consistent_of_checkBlock {id : BlockId} (h : f.checkBlock id = .ok ()) :
    ∃ b, f.blocks.get? id = some b ∧ f.Consistent id b := by
  obtain ⟨b, hb, h⟩ := Except.bind_eq_ok.mp h
  have hb := Table.find_eq_ok.mp hb
  refine ⟨b, hb, ?_⟩
  cases ht : b.terminator with
  | none =>
    simp only [ht] at h
    cases h
  | some t =>
    simp only [ht] at h
    split at h
    · rename_i hsets
      obtain ⟨all, hall, h⟩ := Except.bind_eq_ok.mp h
      cases all with
      | false => cases h
      | true =>
        refine ⟨fun c hc => hsets.2 c ((mem_targets hb ht).mp hc), fun c => ?_, fun c hc => ?_⟩
        · rw [mem_targets hb ht, ← hsets.1]
          simp
        · exact laidOutSource_of_allLaidOutSources hall c (Std.ExtTreeSet.mem_toList.mpr hc)
    · cases h

theorem inconsistent_ne_ok (id : BlockId) : f.inconsistent id ≠ .ok () := by
  intro h
  obtain ⟨b, -, h⟩ := Except.bind_eq_ok.mp h
  cases h

theorem check_eq_ok (h : f.check = .ok ()) :
    f.layout.head? = some f.entry ∧ f.exit ∈ f.layout ∧ f.layout.forM f.checkBlock = .ok () := by
  simp only [check] at h
  split at h
  · rename_i hfirst
    split at h
    · exact ⟨hfirst, ‹_›, h⟩
    · obtain ⟨_, hexit, -⟩ := Except.bind_eq_ok.mp h
      exact absurd hexit (inconsistent_ne_ok _)
  · obtain ⟨_, hentry, -⟩ := Except.bind_eq_ok.mp h
    exact absurd hentry (inconsistent_ne_ok _)

/-- **The check looks at every laid-out block.** -/
theorem consistent_of_check (h : f.check = .ok ()) {id : BlockId} (hid : id ∈ f.layout) :
    ∃ b, f.blocks.get? id = some b ∧ f.Consistent id b :=
  consistent_of_checkBlock (Except.forM_eq_ok.mp (check_eq_ok h).2.2 id hid)

/-- **What is right in a checked function.**  Its edges can be derived afresh.  Each laid-out block
has the successors of its terminator, before and after, and no predecessor that does not go to it;
its predecessor set stays the same just if no laid-out block that goes to it is missing there. -/
theorem exists_rebuildEdges_of_check (h : f.check = .ok ()) :
    ∃ g, f.rebuildEdges = .ok g ∧ ∀ id ∈ f.layout, ∃ b b', f.blocks.get? id = some b ∧
      g.blocks.get? id = some b' ∧ b'.successors = b.successors ∧
      (∀ c, c ∈ b.successors ↔ c ∈ f.targets id) ∧
      (∀ c ∈ b.predecessors, c ∈ f.layout ∧ id ∈ f.targets c) ∧
      (b'.predecessors = b.predecessors ↔
        ∀ c ∈ f.layout, id ∈ f.targets c → c ∈ b.predecessors) := by
  have hlt : ∀ id ∈ f.layout, id.val < f.blocks.size := fun id hid =>
    (consistent_of_check h hid).elim fun _ hb => Table.lt_size_of_get? hb.1
  obtain ⟨blocks, hrebuild, -, hblocks⟩ := exists_rebuildEdges hlt fun id hid c hc =>
    (consistent_of_check h hid).elim fun _ hb => hlt c (hb.2.targets c hc)
  refine ⟨_, hrebuild, fun id hid => ?_⟩
  obtain ⟨b, hb, hconsistent⟩ := consistent_of_check h hid
  obtain ⟨b', hb', -, hsuccessors, hpredecessors⟩ := hblocks id b hb
  -- a recorded predecessor has the edge, and its successors are those of its terminator
  have hsources : ∀ c ∈ b.predecessors, c ∈ f.layout ∧ id ∈ f.targets c := by
    intro c hc
    obtain ⟨hlaid, d, hd, hmem⟩ := hconsistent.predecessors c hc
    obtain ⟨d', hd', hconsistent'⟩ := consistent_of_check h hlaid
    obtain rfl := Option.some.inj (hd.symm.trans hd')
    exact ⟨hlaid, (hconsistent'.successors id).mp hmem⟩
  refine ⟨b, b', hb, hb', ?_, hconsistent.successors, hsources, ?_⟩
  · refine Std.ExtTreeSet.ext_mem fun c => ?_
    rw [hsuccessors, hconsistent.successors]
    exact and_iff_right hid
  · constructor
    · intro heq c hc htarget
      exact heq ▸ (hpredecessors c).mpr ⟨hc, htarget⟩
    · intro hcomplete
      refine Std.ExtTreeSet.ext_mem fun c => ?_
      rw [hpredecessors]
      exact ⟨fun hc => hcomplete c hc.1 hc.2, hsources c⟩

def passage (predecessors : List BlockId) : Function where
  name := "passage"
  returnType := .void
  blocks := ⟨#[
    { label := "entry", terminator := some (.jump ⟨1⟩),
      successors := Std.ExtTreeSet.ofList [(⟨1⟩ : BlockId)] },
    { label := "exit", terminator := some (.ret none),
      predecessors := Std.ExtTreeSet.ofList predecessors }]⟩
  layout := [⟨0⟩, ⟨1⟩]
  exit := ⟨1⟩

theorem check_passage (h : (passage predecessors).check.isOk = true) :
    (passage predecessors).check = .ok () := by
  cases hcheck : (passage predecessors).check with
  | ok u => rfl
  | error e => simp [hcheck, Except.isOk, Except.toBool] at h

/-- With the one predecessor that the exit has, to derive the edges changes nothing. -/
theorem exists_rebuildEdges_of_check_passage :
    (passage [⟨0⟩]).check = .ok () ∧ ∃ g b b', (passage [⟨0⟩]).rebuildEdges = .ok g ∧
      (passage [⟨0⟩]).blocks.get? ⟨1⟩ = some b ∧ g.blocks.get? ⟨1⟩ = some b' ∧
      b'.predecessors = b.predecessors := by
  have hcheck : (passage [⟨0⟩]).check = .ok () := check_passage (by decide +kernel)
  obtain ⟨g, hg, hblocks⟩ := exists_rebuildEdges_of_check hcheck
  obtain ⟨b, b', hb, hb', -, -, -, hsame⟩ := hblocks ⟨1⟩ (by decide)
  refine ⟨hcheck, g, b, b', hg, hb, hb', hsame.mpr fun c hc htarget => ?_⟩
  have hpredecessors : b.predecessors = Std.ExtTreeSet.ofList [(⟨0⟩ : BlockId)] := by
    rw [← Option.some.inj hb]
    rfl
  have hcases : c = ⟨0⟩ ∨ c = ⟨1⟩ := by simpa [passage] using hc
  rcases hcases with rfl | rfl
  · simp [hpredecessors]
  · exact absurd htarget (by decide)

/-- **A missing predecessor passes the check.**  The exit records no predecessor, though the entry
goes there, and to derive the edges adds it. -/
theorem check_passage_nil :
    (passage []).check = .ok () ∧ ⟨1⟩ ∈ (passage []).targets ⟨0⟩ ∧
      ((passage []).blocks.get? ⟨1⟩).map (·.predecessors.toList) = some [] ∧
      ∃ g, (passage []).rebuildEdges = .ok g ∧
        (g.blocks.get? ⟨1⟩).map (·.predecessors.toList) = some [⟨0⟩] := by
  refine ⟨check_passage (by decide +kernel), by decide, by decide +kernel, ?_⟩
  have hrebuilt : (passage []).rebuildEdges.toOption.bind (fun g =>
      (g.blocks.get? ⟨1⟩).map (·.predecessors.toList)) = some [⟨0⟩] := by decide +kernel
  cases hg : (passage []).rebuildEdges with
  | error e => simp [hg, Except.toOption] at hrebuilt
  | ok g => exact ⟨g, rfl, by simpa [hg, Except.toOption] using hrebuilt⟩

end Function

end MxStar.Flow
