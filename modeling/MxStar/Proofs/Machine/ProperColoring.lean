import MxStar.Proofs.Machine.Clash
import MxStar.Proofs.Machine.Coloring

/-!
# A colouring passes its check

The registers are coloured one after the other, each with a colour that none of its
neighbours has at that time.  Edges are seen from both ends, so a later register avoids
the colours of the earlier ones, and no two neighbours share one (`Avoids.colorOne`).
Every register of the graph is put aside once, so without spills every register has a
colour.  Both together are what `Function.checkColors` asks for.
-/

namespace MxStar.Machine

namespace Interference

variable {g : Interference} {info : SpillInfo} {palette : List Physical}

/-- Edges are seen from both ends and join different registers. -/
structure Symmetric (g : Interference) : Prop where
  symm : ∀ v w, g.interferes v (.virtual w) = true → g.interferes w (.virtual v) = true
  irrefl : ∀ v, g.interferes v (.virtual v) = false

theorem symmetric_build (f : Function) (l : Liveness) : (build f l).Symmetric where
  symm := by
    intro v w h
    rw [interferes_build] at h ⊢
    exact h.symm
  irrefl := by
    intro v
    rw [← Bool.not_eq_true, interferes_build, or_self]
    rintro ⟨b, block, -, before, i, after, -, -, -, hne⟩
    exact hne rfl

/-- No register that has a colour shares it with a neighbour. -/
def Avoids (g : Interference) (colors : Colors) : Prop :=
  ∀ (v : VirtualId) (color : Physical), colors[v]? = some color →
    ∀ r, g.interferes v r = true → Function.placeOf colors r ≠ some color

variable {v : VirtualId}

theorem mem_taken {color : Physical} : color ∈ g.taken colors v ↔
      ∃ r, g.interferes v r = true ∧ Function.placeOf colors r = some color := by
  simp only [taken, List.mem_filterMap, Std.ExtTreeSet.mem_toList, interferes,
    Std.ExtTreeSet.contains_iff_mem]
  refine exists_congr fun r => and_congr_right fun _ => ?_
  cases r <;> rfl

/-- **A new colour is one that no neighbour has.** -/
theorem Avoids.colorOne (hg : g.Symmetric) (h : g.Avoids c.colors) (v : VirtualId) :
    g.Avoids (g.colorOne palette c v).colors := by
  simp only [Interference.colorOne]
  split
  · rename_i color hcolor
    have hfree : color ∉ g.taken c.colors v := by simpa using List.find?_some hcolor
    intro w other hw r hr hplace
    simp only [Std.ExtTreeMap.getElem?_insert, Std.compare_eq_iff_eq] at hw
    by_cases hvw : v = w
    · -- the new register against its neighbours, none of which it is itself
      subst hvw
      obtain rfl : color = other := by simpa using hw
      refine hfree (mem_taken.mpr ⟨r, hr, ?_⟩)
      cases r with
      | physical q => exact hplace
      | virtual x =>
        have hne : v ≠ x := by
          rintro rfl
          simp [hg.irrefl v] at hr
        simpa [Function.placeOf, Std.ExtTreeMap.getElem?_insert, hne] using hplace
    · rw [if_neg hvw] at hw
      cases r with
      | physical q => exact h w other hw _ hr hplace
      | virtual x =>
        by_cases hvx : v = x
        · -- an earlier register against the new one, seen from the other end
          subst hvx
          obtain rfl : color = other := by simpa [Function.placeOf] using hplace
          exact hfree (mem_taken.mpr ⟨.virtual w, hg.symm w v hr, hw⟩)
        · refine h w other hw _ hr ?_
          simpa [Function.placeOf, Std.ExtTreeMap.getElem?_insert, hvx] using hplace
  · exact h

theorem avoids_colorOrder (hg : g.Symmetric) (order : List VirtualId) :
    g.Avoids (g.colorOrder palette order).colors := by
  induction order with
  | nil => intro v color h; simp [colorOrder] at h
  | cons v rest ih =>
    rw [colorOrder_cons]
    exact ih.colorOne hg v

theorem mem_colorOrder (h : v ∈ order) :
    v ∈ (g.colorOrder palette order).colors ∨ v ∈ (g.colorOrder palette order).uncolored := by
  induction order with
  | nil => simp at h
  | cons w rest ih =>
    rw [colorOrder_cons, colorOne]
    split
    · rcases List.mem_cons.mp h with rfl | hv
      · exact .inl (by simp)
      · exact (ih hv).imp_left fun hmem => Std.ExtTreeMap.mem_insert.mpr (.inr hmem)
    · rcases List.mem_cons.mp h with rfl | hv
      · exact .inr (by simp)
      · exact (ih hv).imp_right fun hmem => List.mem_append_left _ hmem

theorem exists_pick (g : Interference) (info : SpillInfo) (palette : List Physical)
    (h : remaining.size ≠ 0) : ∃ v, g.pick info palette remaining = some v := by
  simp only [pick]
  split
  · exact ⟨_, rfl⟩
  · refine Option.isSome_iff_exists.mp ((cheapest_isSome _ _).mpr fun hnil => h ?_)
    rw [← Std.ExtTreeSet.length_toList, hnil]
    rfl

theorem mem_simplify (hcount : remaining.size ≤ count) (hv : v ∈ remaining) :
    v ∈ g.simplify info palette count remaining := by
  induction count generalizing remaining with
  | zero =>
    have hnil : remaining.toList = [] := by
      rw [← List.length_eq_zero_iff, Std.ExtTreeSet.length_toList]
      omega
    rw [← Std.ExtTreeSet.mem_toList, hnil] at hv
    simp at hv
  | succ count ih =>
    have hsize : remaining.size ≠ 0 := by
      rw [← Std.ExtTreeSet.length_toList]
      exact (List.length_pos_of_mem (Std.ExtTreeSet.mem_toList.mpr hv)).ne'
    obtain ⟨w, hw⟩ := exists_pick g info palette hsize
    simp only [simplify, hw]
    by_cases heq : v = w
    · exact heq ▸ (.head _)
    · refine List.mem_cons_of_mem _ (ih ?_ ?_)
      · rw [Std.ExtTreeSet.size_erase, if_pos
          (Std.ExtTreeSet.contains_iff_mem.mpr (mem_of_pick hw))]
        omega
      · rw [Std.ExtTreeSet.mem_erase]
        exact ⟨by simpa [Std.compare_eq_iff_eq] using Ne.symm heq, hv⟩

theorem avoids_color (hg : g.Symmetric) : g.Avoids (g.color info palette).colors :=
  avoids_colorOrder hg _

theorem mem_color (h : v ∈ g.adjacency) :
    v ∈ (g.color info palette).colors ∨ v ∈ (g.color info palette).uncolored :=
  mem_colorOrder (mem_simplify le_rfl ((mem_registers v).mpr h))

end Interference

theorem Function.checkColors_color {palette : List Physical}
    (h : ((Interference.build f l).color info palette).uncolored = []) :
    f.checkColors l ((Interference.build f l).color info palette).colors = .ok () := by
  refine Except.forM_eq_ok.mpr ?_
  rintro ⟨v, neighbours⟩ hmem
  have hv := Std.ExtTreeMap.mem_toList_iff_getElem?_eq_some.mp hmem
  have hvertex : v ∈ (Interference.build f l).adjacency :=
    Std.ExtTreeMap.mem_iff_isSome_getElem?.mpr (by simp [hv])
  have hcolored : v ∈ ((Interference.build f l).color info palette).colors :=
    (Interference.mem_color hvertex).resolve_right (by simp [h])
  obtain ⟨color, hcolor⟩ :=
    Option.isSome_iff_exists.mp (Std.ExtTreeMap.mem_iff_isSome_getElem?.mp hcolored)
  simp only [Function.checkRegister, hcolor]
  split
  · rename_i r hfind
    have hr : (Interference.build f l).interferes v r = true := by
      simpa [Interference.interferes, Interference.neighbours, hv] using
        List.mem_of_find?_eq_some hfind
    refine absurd ?_ (Interference.avoids_color (Interference.symmetric_build f l) v
      color hcolor r hr)
    simpa using List.find?_some hfind
  · rfl

end MxStar.Machine
