import MxStar.Proofs.Flow.LoweredUnit

/-!
# Registers have a value when they are read

In a finished function every register is written at most once, and on every path
from the entry it is written before it is read.  Along a path the registers that a
block counts on have been written by the blocks passed on the way, because each
edge leads to a block whose registers its source can vouch for.
-/

namespace MxStar.Flow

theorem Ordered.mem {known : Set RegisterId} {after : List Instr}
    (h : Ordered known (before ++ i :: after)) (hr : .register r ∈ i.operands) :
    r ∈ known ∨ r ∈ written before := by
  induction before generalizing known with
  | nil => exact .inl (h.1 r hr)
  | cons j rest ih =>
    rcases ih h.2 with (hknown | hj) | hrest
    · exact .inl hknown
    · exact .inr (mem_written_cons.mpr (.inl hj))
    · exact .inr (mem_written_cons.mpr (.inr hrest))

namespace Function

variable {f : Function} {A : BlockId → Set RegisterId}

def instrsAt (f : Function) (id : BlockId) : List Instr :=
  ((f.blocks.get? id).map fun b => b.instrs.toList).getD []

/-- A path from the entry to a block, with the blocks passed before it in order. -/
inductive Path (f : Function) : List BlockId → BlockId → Prop
  | start : f.Path [] f.entry
  | step {passed : List BlockId} {b c : BlockId} (path : f.Path passed b) (edge : c ∈ f.targets b) :
    f.Path (passed ++ [b]) c

/-- A register has a value after some blocks and instructions: it is a parameter or
a cell, or has been written. -/
def HasValue (f : Function) (passed : List BlockId) (instrs : List Instr) (r : RegisterId) : Prop :=
  r ∈ f.given ∨ (∃ b ∈ passed, r ∈ written (f.instrsAt b)) ∨ r ∈ written instrs

/-- All registers of a function that get a value: the parameters, the cells, and
what the instructions in the layout write. -/
def definitions (f : Function) : List RegisterId :=
  f.parameters ++ f.cells.toList.map Cell.register ++
    f.layout.flatMap fun id => written (f.instrsAt id)

/-- Every register gets its value in one way and before it is read. -/
structure Defined (f : Function) : Prop where
  once : f.definitions.Nodup
  exist : ∀ r ∈ f.definitions, r.val < f.registers.size
  operands : ∀ passed id, f.Path passed id → ∀ before i after,
    f.instrsAt id = before ++ i :: after → ∀ r, .register r ∈ i.operands →
      f.HasValue passed before r
  terminators : ∀ passed id, f.Path passed id → ∀ b t, f.blocks.get? id = some b →
    b.terminator = some t → ∀ r, .register r ∈ t.operands → f.HasValue passed (f.instrsAt id) r

theorem instrsAt_eq {id : BlockId} (hb : f.blocks.get? id = some b) :
    f.instrsAt id = b.instrs.toList := by
  simp [instrsAt, hb]

namespace Sound

variable (h : f.Sound A)
include h

theorem not_mem_targets (id : BlockId) : f.entry ∉ f.targets id := by
  intro hedge
  obtain ⟨b, t, -, hc, hends⟩ := h.draft.ends_of_mem_targets hedge
  exact hends.not_entry _ hc rfl

/-- **Along a path, the registers a block counts on have been written.** -/
theorem written_of_path {id : BlockId} (hpath : f.Path passed id) (hr : r ∈ A id) :
    r ∈ f.given ∨ ∃ b ∈ passed, r ∈ written (f.instrsAt b) := by
  induction hpath with
  | start => simp [h.entry_free] at hr
  | step hpath hedge ih =>
    rename_i passed b c
    obtain ⟨block, t, hb, hc, hends⟩ := h.draft.ends_of_mem_targets hedge
    rcases mem_after.mp (hends.vouches c hc hr) with hgiven | hstart | hwritten
    · exact .inl hgiven
    · refine (ih hstart).imp_right ?_
      rintro ⟨d, hd, hwritten⟩
      exact ⟨d, List.mem_append_left _ hd, hwritten⟩
    · refine .inr ⟨b, by simp, ?_⟩
      rw [instrsAt_eq hb]
      exact hwritten

theorem hasValue_of_mem_atStart {id : BlockId} (hpath : f.Path passed id) (hr : r ∈ f.atStart A id)
    (instrs : List Instr) : f.HasValue passed instrs r := by
  rcases hr with hgiven | hcounted
  · exact .inl hgiven
  · exact (h.written_of_path hpath hcounted).imp_right .inl

theorem nodup_definitions : f.definitions.Nodup := by
  have hwritten : ∀ id r, r ∈ written (f.instrsAt id) →
      ∃ b, f.blocks.get? id = some b ∧ r ∈ written b.instrs.toList := by
    intro id r hr
    cases hb : f.blocks.get? id with
    | none => simp [instrsAt, hb, written] at hr
    | some b => exact ⟨b, rfl, by simpa [instrsAt, hb] using hr⟩
  refine List.Nodup.append h.draft.given_nodup ?_ ?_
  · refine List.nodup_flatMap.mpr ⟨fun id hid => ?_, ?_⟩
    · obtain ⟨b, t, hb, -⟩ := h.wellFormed.closed id hid
      rw [instrsAt_eq hb]
      exact h.draft.written_nodup id b hb
    · refine h.wellFormed.nodup.imp fun {id id'} hne r hr hr' => ?_
      obtain ⟨b, hb, hr⟩ := hwritten id r hr
      obtain ⟨b', hb', hr'⟩ := hwritten id' r hr'
      exact hne (h.draft.written_apart id id' b b' r hb hb' hr hr')
  · intro r hgiven hr
    obtain ⟨id, -, hr⟩ := List.mem_flatMap.mp hr
    obtain ⟨b, hb, hr⟩ := hwritten id r hr
    exact (h.draft.written_new id b r hb hr).2 hgiven

/-- **In a finished function, every register has a value when it is read.** -/
theorem defined : f.Defined where
  once := h.nodup_definitions
  exist := by
    intro r hr
    rcases List.mem_append.mp hr with hgiven | hr
    · exact h.draft.given_lt r hgiven
    · obtain ⟨id, hid, hr⟩ := List.mem_flatMap.mp hr
      obtain ⟨b, t, hb, -⟩ := h.wellFormed.closed id hid
      rw [instrsAt_eq hb] at hr
      exact (h.draft.written_new id b r hb hr).1
  operands := by
    intro passed id hpath before i after hinstrs r hr
    cases hb : f.blocks.get? id with
    | none => simp [instrsAt, hb] at hinstrs
    | some b =>
      have hordered := h.draft.ordered id b hb
      rw [← instrsAt_eq hb, hinstrs] at hordered
      rcases hordered.mem hr with hstart | hwritten
      · exact h.hasValue_of_mem_atStart hpath hstart before
      · exact .inr (.inr hwritten)
  terminators := by
    intro passed id hpath b t hb ht r hr
    rcases (h.draft.ends id b t hb ht).reads r hr with hstart | hwritten
    · exact h.hasValue_of_mem_atStart hpath hstart _
    · refine .inr (.inr ?_)
      rw [instrsAt_eq hb]
      exact hwritten

end Sound

end Function

end MxStar.Flow
