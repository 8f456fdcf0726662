import Mathlib
import MxStar.Machine.Coloring

/-!
# Registers that get no colour

A register that was put aside with fewer neighbours than there are colours finds
one: the registers that are coloured before it are those that were still there
when it was put aside.  So a register without a colour was a candidate for
spilling, taken when no register could be put aside safely
(`isCandidate_of_mem_uncolored`), and a register that must not be spilled was taken
only when no other kind was left.

If the registers can be listed so that each has few neighbours among the later ones, then
whatever is left of the graph has a register that can be put aside safely, so the order that
is taken does not matter (`PeelsOff.exists_degree_lt`).
-/

namespace MxStar.Machine

theorem never_of_cheapest {cost : VirtualId → SpillCost} (h : cheapest cost list = some v)
    (hv : cost v = .never) : ∀ w ∈ list, cost w = .never := by
  induction list generalizing v with
  | nil => simp
  | cons a rest ih =>
    simp only [cheapest] at h
    cases hrest : cheapest cost rest with
    | none =>
      have hnil : rest = [] := by
        have := (cheapest_isSome cost rest).not
        simpa [hrest] using this
      obtain rfl : a = v := by simpa [hrest] using h
      simpa [hnil] using hv
    | some w =>
      simp only [hrest] at h
      split at h
      · rename_i hless
        cases h
        simp [hv, SpillCost.less] at hless
      · rename_i hless
        cases h
        have hw : cost w = .never := by
          cases hcost : cost w with
          | never => rfl
          | ratio m d => simp [hv, hcost, SpillCost.less] at hless
        intro u hu
        rcases List.mem_cons.mp hu with rfl | hu
        · exact hv
        · exact ih hrest hw u hu

namespace Interference

variable {g : Interference} {info : SpillInfo} {palette : List Physical}
  {remaining : IndexSet .virtual} {v : VirtualId}

section

variable (h : g.pick info palette remaining = some v)
include h

theorem mem_of_pick : v ∈ remaining := by
  simp only [pick] at h
  split at h
  · rename_i w hw
    cases h
    exact Std.ExtTreeSet.mem_toList.mp (List.mem_of_find?_eq_some hw)
  · exact Std.ExtTreeSet.mem_toList.mp (cheapest_mem h)

variable (hv : palette.length ≤ g.degree palette remaining v)
include hv

theorem degree_of_pick : cheapest (g.spillCost info palette remaining) remaining.toList = some v ∧
      ∀ w ∈ remaining, palette.length ≤ g.degree palette remaining w := by
  simp only [pick] at h
  split at h
  · rename_i w hw
    cases h
    have := List.find?_some hw
    simp only [decide_eq_true_eq] at this
    omega
  · rename_i hnone
    refine ⟨h, fun w hw => ?_⟩
    simpa using List.find?_eq_none.mp hnone w (Std.ExtTreeSet.mem_toList.mpr hw)

theorem unspillable_of_pick (hnever : v ∈ info.unspillable) :
    ∀ w ∈ remaining, w ∈ info.unspillable := by
  have hcost : g.spillCost info palette remaining v = .never := by simp [spillCost, hnever]
  intro w hw
  have := never_of_cheapest (degree_of_pick h hv).1 hcost w (Std.ExtTreeSet.mem_toList.mpr hw)
  simp only [spillCost] at this
  split at this
  · rename_i hmem
    exact Std.ExtTreeSet.contains_iff_mem.mp hmem
  · simp at this

end

theorem mem_of_mem_simplify (h : v ∈ g.simplify info palette count remaining) : v ∈ remaining := by
  induction count generalizing remaining with
  | zero => simp [simplify] at h
  | succ count ih =>
    simp only [simplify] at h
    split at h
    · rename_i w hw
      rcases List.mem_cons.mp h with rfl | h
      · exact mem_of_pick hw
      · exact Std.ExtTreeSet.mem_of_mem_erase (ih h)
    · simp at h

/-- The registers put aside are coloured from the last to the first. -/
def colorOrder (g : Interference) (palette : List Physical) (order : List VirtualId) : Coloring :=
  order.reverse.foldl (g.colorOne palette) {}

theorem colorOrder_cons (v : VirtualId) (order : List VirtualId) :
    g.colorOrder palette (v :: order) = g.colorOne palette (g.colorOrder palette order) v := by
  simp [colorOrder]

theorem mem_of_colorOrder
    (h : v ∈ (g.colorOrder palette order).colors ∨ v ∈ (g.colorOrder palette order).uncolored) :
    v ∈ order := by
  induction order with
  | nil => simp [colorOrder] at h
  | cons w rest ih =>
    rw [colorOrder_cons, colorOne] at h
    by_cases hvw : v = w
    · simp [hvw]
    · refine List.mem_cons_of_mem _ (ih ?_)
      split at h
      · simpa [Std.ExtTreeMap.mem_insert, Ne.symm hvw] using h
      · simpa [hvw] using h

theorem length_taken_le (colors : Colors) (remaining : IndexSet .virtual)
    (h : ∀ w ∈ colors, w ∈ remaining) (v : VirtualId) :
    ((g.taken colors v).filter (· ∈ palette)).length ≤ g.degree palette remaining v := by
  simp only [taken, degree]
  induction (g.neighbours v).toList with
  | nil => simp
  | cons r rest ih =>
    cases r with
    | physical p => by_cases hp : p ∈ palette <;> simp [hp] at ih ⊢ <;> omega
    | virtual w =>
      cases hw : colors[w]? with
      | none =>
        simp only [List.filterMap_cons, hw, List.countP_cons]
        omega
      | some color =>
        have hmem : w ∈ remaining := h w (Std.ExtTreeMap.mem_iff_isSome_getElem?.mpr (by simp [hw]))
        by_cases hcolor : color ∈ palette <;> simp [hw, hmem, hcolor] at ih ⊢ <;> omega

theorem length_le_degree_of_find? (hnodup : palette.Nodup) (h : ∀ w ∈ colors, w ∈ remaining)
    (hnone : palette.find? (fun color => color ∉ g.taken colors v) = none) :
    palette.length ≤ g.degree palette remaining v := by
  have hsubset : palette ⊆ (g.taken colors v).filter (· ∈ palette) := by
    intro color hcolor
    have := List.find?_eq_none.mp hnone color hcolor
    simpa [hcolor] using this
  exact (List.subperm_of_subset hnodup hsubset).length_le.trans
    (length_taken_le colors remaining h v)

/-- What is left of the registers when some are put aside. -/
def leaving (remaining : IndexSet .virtual) (aside : List VirtualId) : IndexSet .virtual :=
  aside.foldl (fun left v => left.erase v) remaining

theorem mem_of_mem_leaving (h : v ∈ leaving remaining aside) : v ∈ remaining := by
  induction aside generalizing remaining with
  | nil => exact h
  | cons w rest ih => exact Std.ExtTreeSet.mem_of_mem_erase (ih h)

/-- **A register without a colour was put aside as a candidate for spilling**: it had
as many neighbours left as there are colours. -/
theorem exists_of_mem_uncolored (hnodup : palette.Nodup)
    (h : v ∈ (g.color info palette).uncolored) :
    ∃ before after, g.simplify info palette g.registers.size g.registers = before ++ v :: after ∧
      g.pick info palette (leaving g.registers before) = some v ∧
      palette.length ≤ g.degree palette (leaving g.registers before) v := by
  -- along the order in which registers are put aside
  have hsimplify : ∀ (count : Nat) (remaining : IndexSet .virtual),
      v ∈ (g.colorOrder palette (g.simplify info palette count remaining)).uncolored →
      ∃ before after, g.simplify info palette count remaining = before ++ v :: after ∧
        g.pick info palette (leaving remaining before) = some v ∧
        palette.length ≤ g.degree palette (leaving remaining before) v := by
    intro count
    induction count with
    | zero => simp [simplify, colorOrder]
    | succ count ih =>
      intro remaining huncolored
      cases hw : g.pick info palette remaining with
      | none => simp [simplify, hw, colorOrder] at huncolored
      | some w =>
        have hstep : g.simplify info palette (count + 1) remaining =
            w :: g.simplify info palette count (remaining.erase w) := by simp [simplify, hw]
        have hlater : v ∈ (g.colorOrder palette
              (g.simplify info palette count (remaining.erase w))).uncolored →
            ∃ before after, g.simplify info palette (count + 1) remaining = before ++ v :: after ∧
              g.pick info palette (leaving remaining before) = some v ∧
              palette.length ≤ g.degree palette (leaving remaining before) v := by
          intro hrest
          obtain ⟨before, after, heq, hpick, hdegree⟩ := ih (remaining.erase w) hrest
          exact ⟨w :: before, after, by rw [hstep, heq, List.cons_append], hpick, hdegree⟩
        rw [hstep, colorOrder_cons, colorOne] at huncolored
        split at huncolored
        · exact hlater huncolored
        · rename_i hnone
          rcases List.mem_append.mp huncolored with huncolored | hv
          · exact hlater huncolored
          · obtain rfl : v = w := by simpa using hv
            refine ⟨[], _, hstep, hw, length_le_degree_of_find? hnodup (fun u hu => ?_) hnone⟩
            have hu' : u ∈ g.simplify info palette count (remaining.erase v) :=
              mem_of_colorOrder (Or.inl hu)
            exact Std.ExtTreeSet.mem_of_mem_erase (mem_of_mem_simplify hu')
  exact hsimplify _ g.registers h

theorem mem_registers (v : VirtualId) : v ∈ g.registers ↔ v ∈ g.adjacency := by
  simp [registers]

/-! ## Graphs that come apart -/

/-- Each register of the list has fewer neighbours than there are colours among the later ones of
the list and the registers of the palette. -/
def PeelsOff (g : Interference) (palette : List Physical) : List VirtualId → Prop
  | [] => True
  | v :: later =>
    g.degree palette (Std.ExtTreeSet.ofList later) v < palette.length ∧ g.PeelsOff palette later

theorem degree_le_of_later (hirrefl : g.interferes v (.virtual v) = false)
    (h : ∀ w ∈ remaining, w = v ∨ w ∈ later) :
    g.degree palette remaining v ≤ g.degree palette (Std.ExtTreeSet.ofList later) v := by
  refine List.countP_mono_left fun r hr hcounted => ?_
  cases r with
  | physical p => exact hcounted
  | virtual w =>
    have hne : w ≠ v := by
      rintro rfl
      rw [interferes, Std.ExtTreeSet.contains_iff_mem.mpr
        (Std.ExtTreeSet.mem_toList.mp hr)] at hirrefl
      simp at hirrefl
    simpa using (h w (Std.ExtTreeSet.contains_iff_mem.mp hcounted)).resolve_left hne

/-- **Whatever is left of a graph that comes apart** has a register that is sure to find a
colour: the first of the list that is still there. -/
theorem PeelsOff.exists_degree_lt (hirrefl : ∀ v, g.interferes v (.virtual v) = false)
    (h : g.PeelsOff palette order) (hcovers : ∀ w ∈ remaining, w ∈ order) (hu : u ∈ remaining) :
    ∃ v ∈ remaining, g.degree palette remaining v < palette.length := by
  induction order with
  | nil => exact absurd (hcovers u hu) List.not_mem_nil
  | cons v later ih =>
    by_cases hv : v ∈ remaining
    · have hlater : g.degree palette remaining v ≤
          g.degree palette (Std.ExtTreeSet.ofList later) v :=
        degree_le_of_later (hirrefl v) fun w hw => List.mem_cons.mp (hcovers w hw)
      exact ⟨v, hv, hlater.trans_lt h.1⟩
    · refine ih h.2 fun w hw => (List.mem_cons.mp (hcovers w hw)).resolve_left ?_
      rintro rfl
      exact hv hw

/-- The register was put aside as the cheapest to spill, when all registers that were left had at
least as many neighbours as there are colours. -/
def IsCandidate (g : Interference) (info : SpillInfo) (palette : List Physical) (v : VirtualId) :
    Prop :=
  ∃ before after,
    g.simplify info palette g.registers.size g.registers = before ++ v :: after ∧
    v ∈ leaving g.registers before ∧
    (∀ w ∈ leaving g.registers before,
      palette.length ≤ g.degree palette (leaving g.registers before) w) ∧
    cheapest (g.spillCost info palette (leaving g.registers before))
      (leaving g.registers before).toList = some v

theorem isCandidate_of_mem_uncolored (hnodup : palette.Nodup)
    (h : v ∈ (g.color info palette).uncolored) : g.IsCandidate info palette v := by
  obtain ⟨before, after, horder, hpick, hdegree⟩ := exists_of_mem_uncolored hnodup h
  obtain ⟨hcheapest, hall⟩ := degree_of_pick hpick hdegree
  exact ⟨before, after, horder, mem_of_pick hpick, hall, hcheapest⟩

/-- **Nothing is spilled without need.**  If the registers can be listed so that each has fewer
neighbours than there are colours among the later ones and the registers of the palette, all of
them are coloured, in whatever order they are put aside.  In every graph, only candidates for
spilling are left without a colour. -/
theorem uncolored_color_of_peelsOff (hnodup : palette.Nodup)
    (hirrefl : ∀ v, g.interferes v (.virtual v) = false) :
    (∀ order, (∀ v ∈ g.adjacency, v ∈ order) → g.PeelsOff palette order →
        (g.color info palette).uncolored = []) ∧
      ∀ v ∈ (g.color info palette).uncolored, g.IsCandidate info palette v := by
  refine ⟨fun order hcovers hpeels => ?_, fun v => isCandidate_of_mem_uncolored hnodup⟩
  refine List.eq_nil_iff_forall_not_mem.mpr fun v hv => ?_
  obtain ⟨before, -, -, hleft, hall, -⟩ := isCandidate_of_mem_uncolored hnodup hv
  obtain ⟨w, hw, hlt⟩ := hpeels.exists_degree_lt hirrefl
    (fun w hw => hcovers w ((mem_registers w).mp (mem_of_mem_leaving hw))) hleft
  exact absurd (hall w hw) hlt.not_ge

/-- A ring of four registers, one of which also clashes with a register outside the palette. -/
def ring : Interference :=
  ((((vertices [⟨0⟩, ⟨1⟩, ⟨2⟩, ⟨3⟩]).addEdge (.virtual ⟨0⟩) (.virtual ⟨1⟩)).addEdge
    (.virtual ⟨1⟩) (.virtual ⟨2⟩)).addEdge (.virtual ⟨2⟩) (.virtual ⟨3⟩)).addEdge
    (.virtual ⟨3⟩) (.virtual ⟨0⟩) |>.addEdge (.virtual ⟨3⟩) (.physical .a0)

/-- With three colours the ring comes apart from any end, and nothing is spilled. -/
theorem uncolored_color_ring :
    [Physical.t0, .t1, .t2].Nodup ∧ (∀ v, ring.interferes v (.virtual v) = false) ∧
      ring.PeelsOff [.t0, .t1, .t2] [⟨2⟩, ⟨0⟩, ⟨3⟩, ⟨1⟩] ∧
      (ring.color {} [.t0, .t1, .t2]).uncolored = [] := by
  have hkeys : ∀ v ∈ ring.adjacency, v ∈ [⟨0⟩, ⟨1⟩, ⟨2⟩, ⟨3⟩] := by
    intro v hv
    have hall : ring.adjacency.keys = [⟨0⟩, ⟨1⟩, ⟨2⟩, ⟨3⟩] := by decide +kernel
    rwa [← Std.ExtTreeMap.mem_keys, hall] at hv
  have hirrefl : ∀ v, ring.interferes v (.virtual v) = false := by
    intro v
    by_cases hv : v ∈ ring.adjacency
    · have hall : ∀ v ∈ [⟨0⟩, ⟨1⟩, ⟨2⟩, ⟨3⟩], ring.interferes v (.virtual v) = false := by
        decide +kernel
      exact hall v (hkeys v hv)
    · simp [interferes, neighbours, Std.ExtTreeMap.getElem?_eq_none hv]
  have hpeels : ring.PeelsOff [.t0, .t1, .t2] [⟨2⟩, ⟨0⟩, ⟨3⟩, ⟨1⟩] :=
    ⟨by decide +kernel, by decide +kernel, by decide +kernel, by decide +kernel, trivial⟩
  refine ⟨by decide, hirrefl, hpeels, ?_⟩
  refine (uncolored_color_of_peelsOff (by decide) hirrefl).1 _ (fun v hv => ?_) hpeels
  have hv := hkeys v hv
  simp only [List.mem_cons] at hv ⊢
  tauto

end Interference

end MxStar.Machine
