import MxStar.Machine.Allocation
import MxStar.Proofs.Logged
import MxStar.Proofs.Machine.LiveSolution

/-!
# Clashing registers

A definition clashes with every register that is live after it, except that a
move does not clash with its source.  The interference graph is exactly this
relation seen from both sides (`interferes_build`), so an assignment that
passes `Function.checkColors` keeps clashing registers in different places
(`proper_of_checkColors`).  That is all that later proofs have to know about
the graph and the check.
-/

namespace MxStar.Machine

/-- Within a piece of code, `d` is written where `r` holds a value that is still
needed. -/
def CodeClash (code : List Instr) (out : RegisterSet) (d r : Register) : Prop :=
  ∃ before i after, code = before ++ i :: after ∧ d ∈ i.defs ∧
    r ∈ Interference.clashing i (liveBefore after out) ∧ r ≠ d

/-- Somewhere in the function, `d` is written where `r` holds a value that is
still needed. -/
def Clashes (f : Function) (l : Liveness) (d r : Register) : Prop :=
  ∃ b block, f.blocks.get? b = some block ∧ CodeClash block.code (l.block b).liveOut d r

theorem codeClash_cons {code : List Instr} :
    CodeClash (i :: code) out d r ↔
      (d ∈ i.defs ∧ r ∈ Interference.clashing i (liveBefore code out) ∧ r ≠ d) ∨
        CodeClash code out d r := by
  constructor
  · rintro ⟨before, j, after, hcode, hd, hr, hne⟩
    rw [List.cons_eq_append_iff] at hcode
    rcases hcode with ⟨rfl, hcons⟩ | ⟨before', rfl, rfl⟩
    · obtain ⟨rfl, rfl⟩ := List.cons.inj hcons
      exact Or.inl ⟨hd, hr, hne⟩
    · exact Or.inr ⟨before', j, after, rfl, hd, hr, hne⟩
  · rintro (⟨hd, hr, hne⟩ | ⟨before, j, after, rfl, hd, hr, hne⟩)
    · exact ⟨[], i, code, rfl, hd, hr, hne⟩
    · exact ⟨i :: before, j, after, rfl, hd, hr, hne⟩

namespace Interference

theorem interferes_addDefinition (live : RegisterSet) (g : Interference) (written : Register)
    (v : VirtualId) (r : Register) :
    (addDefinition live g written).interferes v r ↔ g.interferes v r ∨
      (written = .virtual v ∧ r ∈ live ∧ r ≠ written) ∨
      (r = written ∧ .virtual v ∈ live ∧ .virtual v ≠ written) := by
  have hlist : ∀ (list : List Register) (g : Interference),
      (list.foldl (fun g r => if r = written then g else g.addEdge written r) g).interferes v r ↔
        g.interferes v r ∨ (written = .virtual v ∧ r ∈ list ∧ r ≠ written) ∨
          (r = written ∧ .virtual v ∈ list ∧ .virtual v ≠ written) := by
    intro list
    induction list with
    | nil => simp
    | cons a rest ih =>
      intro g
      rw [List.foldl_cons, ih]
      by_cases ha : a = written
      · subst ha
        simp only [if_true, List.mem_cons]
        tauto
      · rw [if_neg ha, interferes_addEdge]
        simp only [List.mem_cons]
        constructor
        · rintro ((h | ⟨h, rfl⟩ | ⟨rfl, rfl⟩) | h | h)
          · exact Or.inl h
          · exact Or.inr (Or.inl ⟨h, Or.inl rfl, ha⟩)
          · exact Or.inr (Or.inr ⟨rfl, Or.inl rfl, ha⟩)
          · exact Or.inr (Or.inl ⟨h.1, Or.inr h.2.1, h.2.2⟩)
          · exact Or.inr (Or.inr ⟨h.1, Or.inr h.2.1, h.2.2⟩)
        · rintro (h | ⟨h, rfl | hr, hne⟩ | ⟨rfl, rfl | hv, hne⟩)
          · exact Or.inl (Or.inl h)
          · exact Or.inl (Or.inr (Or.inl ⟨h, rfl⟩))
          · exact Or.inr (Or.inl ⟨h, hr, hne⟩)
          · exact Or.inl (Or.inr (Or.inr ⟨rfl, rfl⟩))
          · exact Or.inr (Or.inr ⟨rfl, hv, hne⟩)
  simpa [addDefinition, Std.ExtTreeSet.mem_toList] using hlist live.toList g

theorem interferes_foldl_addDefinition (live : RegisterSet) (defs : List Register)
    (g : Interference) (v : VirtualId) (r : Register) :
    (defs.foldl (addDefinition live) g).interferes v r ↔ g.interferes v r ∨
      (.virtual v ∈ defs ∧ r ∈ live ∧ r ≠ .virtual v) ∨
      (r ∈ defs ∧ .virtual v ∈ live ∧ .virtual v ≠ r) := by
  induction defs generalizing g with
  | nil => simp
  | cons d rest ih =>
    rw [List.foldl_cons, ih, interferes_addDefinition]
    simp only [List.mem_cons]
    constructor
    · rintro ((h | ⟨rfl, hr, hne⟩ | ⟨rfl, hv, hne⟩) | h | h)
      · exact Or.inl h
      · exact Or.inr (Or.inl ⟨Or.inl rfl, hr, hne⟩)
      · exact Or.inr (Or.inr ⟨Or.inl rfl, hv, hne⟩)
      · exact Or.inr (Or.inl ⟨Or.inr h.1, h.2⟩)
      · exact Or.inr (Or.inr ⟨Or.inr h.1, h.2⟩)
    · rintro (h | ⟨rfl | hd, hr, hne⟩ | ⟨rfl | hd, hv, hne⟩)
      · exact Or.inl (Or.inl h)
      · exact Or.inl (Or.inr (Or.inl ⟨rfl, hr, hne⟩))
      · exact Or.inr (Or.inl ⟨hd, hr, hne⟩)
      · exact Or.inl (Or.inr (Or.inr ⟨rfl, hv, hne⟩))
      · exact Or.inr (Or.inr ⟨hd, hv, hne⟩)

theorem fst_foldr_walk (code : List Instr) (out : RegisterSet) (g : Interference) :
    (code.foldr walk (out, g)).1 = liveBefore code out := by
  induction code with
  | nil => rfl
  | cons i rest ih => simp [walk, ih, liveBefore]

theorem interferes_addCode (g : Interference) (code : List Instr) (out : RegisterSet)
    (v : VirtualId) (r : Register) :
    (g.addCode code out).interferes v r ↔ g.interferes v r ∨
      CodeClash code out (.virtual v) r ∨ CodeClash code out r (.virtual v) := by
  induction code with
  | nil => simp [addCode, CodeClash]
  | cons i rest ih =>
    simp only [addCode] at ih
    rw [addCode, List.foldr_cons, walk, interferes_foldl_addDefinition, fst_foldr_walk, ih,
      codeClash_cons, codeClash_cons]
    tauto

theorem interferes_vertices (registers : List VirtualId) (v : VirtualId) (r : Register) :
    (vertices registers).interferes v r = false := by
  have hlist : ∀ (list : List VirtualId) (m : Std.ExtTreeMap VirtualId RegisterSet),
      (∀ s, m[v]? = some s → s = ∅) →
        ∀ s, (list.foldl (fun adjacency v => adjacency.insert v ∅) m)[v]? = some s → s = ∅ := by
    intro list
    induction list with
    | nil => exact fun m h => h
    | cons a rest ih =>
      intro m h
      refine ih (m.insert a ∅) fun s hs => ?_
      rw [Std.ExtTreeMap.getElem?_insert] at hs
      split at hs
      · exact (Option.some.inj hs).symm
      · exact h s hs
  have hempty := hlist registers ∅ (by simp)
  simp only [interferes, neighbours, vertices]
  cases hs : (registers.foldl (fun adjacency v => adjacency.insert v ∅)
      (∅ : Std.ExtTreeMap VirtualId RegisterSet))[v]? with
  | none => simp
  | some s => simp [hempty s hs]

/-- **The graph is the clash relation**, seen from either side. -/
theorem interferes_build (f : Function) (l : Liveness) (v : VirtualId) (r : Register) :
    (build f l).interferes v r ↔ Clashes f l (.virtual v) r ∨ Clashes f l r (.virtual v) := by
  have hlist : ∀ (pairs : List (BlockId × Block)) (g : Interference),
      (pairs.foldl (fun g (id, b) => g.addCode b.code (l.block id).liveOut) g).interferes v r ↔
        g.interferes v r ∨ ∃ p ∈ pairs, CodeClash p.2.code (l.block p.1).liveOut (.virtual v) r ∨
          CodeClash p.2.code (l.block p.1).liveOut r (.virtual v) := by
    intro pairs
    induction pairs with
    | nil => simp
    | cons p rest ih =>
      intro g
      rw [List.foldl_cons, ih, interferes_addCode]
      simp [or_assoc]
  rw [build, hlist, interferes_vertices]
  simp only [Bool.false_eq_true, false_or, Prod.exists, Table.mem_pairs, Clashes]
  constructor
  · rintro ⟨b, block, hb, h | h⟩
    · exact Or.inl ⟨b, block, hb, h⟩
    · exact Or.inr ⟨b, block, hb, h⟩
  · rintro (⟨b, block, hb, h⟩ | ⟨b, block, hb, h⟩)
    · exact ⟨b, block, hb, Or.inl h⟩
    · exact ⟨b, block, hb, Or.inr h⟩

theorem build_induction {P : Interference → Prop} (f : Function) (l : Liveness)
    (hstart : P (vertices f.inUse.toList)) (hstep : ∀ g a b, P g → P (g.addNeighbour a b)) :
    P (build f l) := by
  have hdef : ∀ (live : RegisterSet) (g : Interference) (written : Register), P g →
      P (addDefinition live g written) := by
    intro live g written hg
    refine List.foldlRecOn _ _ hg fun g hg r _ => ?_
    split
    · exact hg
    · exact hstep _ _ _ (hstep _ _ _ hg)
  have hcode : ∀ (code : List Instr) (out : RegisterSet) (g : Interference), P g →
      P (g.addCode code out) := by
    intro code out g hg
    induction code with
    | nil => exact hg
    | cons i rest ih => exact List.foldlRecOn _ _ ih fun g hg d _ => hdef _ g d hg
  exact List.foldlRecOn _ _ hstart fun g hg p _ => hcode _ _ g hg

theorem mem_adjacency_vertices (registers : List VirtualId) (v : VirtualId) :
    v ∈ (vertices registers).adjacency ↔ v ∈ registers := by
  have hlist : ∀ (list : List VirtualId) (m : Std.ExtTreeMap VirtualId RegisterSet),
      v ∈ list.foldl (fun adjacency v => adjacency.insert v ∅) m ↔ v ∈ m ∨ v ∈ list := by
    intro list
    induction list with
    | nil => simp
    | cons a rest ih =>
      intro m
      rw [List.foldl_cons, ih, Std.ExtTreeMap.mem_insert, Std.compare_eq_iff_eq, List.mem_cons]
      tauto
  simpa [vertices] using hlist registers ∅

theorem mem_adjacency_build_iff (f : Function) (l : Liveness) (v : VirtualId) :
    v ∈ (build f l).adjacency ↔ v ∈ f.inUse ∨ ∃ r, (build f l).interferes v r := by
  refine build_induction (P := fun g => v ∈ g.adjacency ↔ v ∈ f.inUse ∨ ∃ r, g.interferes v r)
    f l ?_ ?_
  · simp [mem_adjacency_vertices, interferes_vertices]
  · intro g a b hg
    simp only [interferes_addNeighbour, exists_or, ← or_assoc, ← hg]
    cases a with
    | physical p => simp [addNeighbour]
    | virtual w =>
      simp only [addNeighbour, Std.ExtTreeMap.mem_insert, Std.compare_eq_iff_eq,
        Register.virtual.injEq, exists_and_left, exists_eq', and_true]
      exact or_comm

end Interference

/-- Colours that keep clashing registers in different places. -/
structure Proper (f : Function) (l : Liveness) (colors : Colors) : Prop where
  /-- No colour is one of the reserved registers -/
  allocatable : ∀ (v : VirtualId) (p : Physical), colors[v]? = some p → p.isAllocatable = true
  distinct : ∀ d r, Clashes f l d r → replaceBy colors d ≠ replaceBy colors r

theorem proper_empty (f : Function) (l : Liveness) : Proper f l ∅ where
  allocatable := by simp
  distinct := by
    rintro d r ⟨b, block, -, before, i, after, -, -, -, hne⟩
    have hself : ∀ q, replaceBy ∅ q = q := by
      intro q
      cases q <;> simp [replaceBy]
    rw [hself, hself]
    exact hne.symm

variable {l : Liveness} {f : Function} {colors : Colors} (h : f.checkColors l colors = .ok ())
include h

theorem Function.color_of_checkColors (hint : (Interference.build f l).interferes v r) :
    ∃ color, colors[v]? = some color ∧ Function.placeOf colors r ≠ some color := by
  simp only [Interference.interferes, Interference.neighbours] at hint
  cases hv : (Interference.build f l).adjacency[v]? with
  | none => simp [hv] at hint
  | some neighbours =>
    have hcheck := Except.forM_eq_ok.mp h (v, neighbours)
      (Std.ExtTreeMap.mem_toList_iff_getElem?_eq_some.mpr hv)
    simp only [Function.checkRegister] at hcheck
    split at hcheck
    · simp at hcheck
    · rename_i color hcolor
      refine ⟨color, hcolor, fun hplace => ?_⟩
      split at hcheck
      · simp at hcheck
      · rename_i hnone
        have hr : r ∈ neighbours.toList := by
          rw [Std.ExtTreeSet.mem_toList]
          simpa [hv] using hint
        have := List.find?_eq_none.mp hnone r hr
        simp [hplace] at this

theorem proper_of_checkColors
    (hall : ∀ (v : VirtualId) (p : Physical), colors[v]? = some p → p.isAllocatable = true) :
    Proper f l colors where
  allocatable := hall
  distinct := by
    intro d r hclash
    cases d with
    | virtual v =>
      obtain ⟨color, hcolor, hplace⟩ := Function.color_of_checkColors h
        ((Interference.interferes_build f l v r).mpr (Or.inl hclash))
      cases r with
      | physical q => simpa [replaceBy, hcolor, Function.placeOf, eq_comm] using hplace
      | virtual w =>
        simp only [replaceBy, hcolor, Function.placeOf] at hplace ⊢
        cases hw : colors[w]? with
        | none => simp
        | some q =>
          intro heq
          obtain rfl : color = q := Register.physical.inj heq
          exact hplace hw
    | physical p =>
      cases r with
      | physical q =>
        obtain ⟨b, block, -, before, i, after, -, -, -, hne⟩ := hclash
        simpa [replaceBy, eq_comm] using hne
      | virtual w =>
        obtain ⟨color, hcolor, hplace⟩ := Function.color_of_checkColors h
          ((Interference.interferes_build f l w (.physical p)).mpr (Or.inr hclash))
        simpa [replaceBy, hcolor, Function.placeOf] using hplace

end MxStar.Machine
