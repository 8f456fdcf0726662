import MxStar.Proofs.Machine.Renaming
import MxStar.Proofs.Machine.SpilledRun

/-!
# Allocated code behaves like the code before it

Allocation is a number of rounds of spilling followed by one assignment.  A run
of the final code is followed backwards: the places of the assignment tell what
the virtual registers held at the start, and the objects of the frame tell what
the spilled ones held.  This gives a run of the code before allocation that looks
the same but starts from particular contents of its virtual registers.

A function that needs no virtual register at its entry does not care what these
hold (`Function.view_run_eq`), so every run of it looks like that.
-/

namespace MxStar.Machine

/-! ## Rounds -/

/-- The second function comes from the first by rounds of spilling. -/
inductive Spills : Function → Function → Prop
  | refl (f : Function) : Spills f f
  | step {f g : Function} (registers : List VirtualId) : Spills (f.spill registers) g → Spills f g

namespace Spills

variable {f g : Function}

theorem virtuals_le (h : Spills f g) : f.virtuals ≤ g.virtuals := by
  induction h with
  | refl f => exact le_rfl
  | @step f g registers _ ih => exact (f.virtuals_le_spill registers).trans ih

theorem terminatorsLast (h : Spills f g) (hlast : f.TerminatorsLast) : g.TerminatorsLast := by
  induction h with
  | refl f => exact hlast
  | step registers _ ih => exact ih (Function.terminatorsLast_spill hlast registers)

end Spills

variable {v : VirtualId} {a : Assignment}

theorem Interference.mem_palette_of_color {g : Interference} {info : SpillInfo}
    {palette : List Physical} {p : Physical} (h : (g.color info palette).colors[v]? = some p) :
    p ∈ palette := by
  have hlist : ∀ (order : List VirtualId) (c : Coloring),
      (∀ p, c.colors[v]? = some p → p ∈ palette) →
      ∀ p, (order.foldl (g.colorOne palette) c).colors[v]? = some p → p ∈ palette := by
    intro order
    induction order with
    | nil => exact fun c hc => hc
    | cons w rest ih =>
      intro c hc
      apply ih
      intro p hp
      simp only [colorOne] at hp
      split at hp
      · rename_i color hcolor
        rw [Std.ExtTreeMap.getElem?_insert] at hp
        split at hp
        · cases hp
          exact List.mem_of_find?_eq_some hcolor
        · exact hc p hp
      · exact hc p hp
  exact hlist _ {} (by simp) p h

variable {f : Function} {l : Liveness} {log log' : Log}

theorem Function.compute_of_liveness (h : f.liveness log = .ok l log') :
    Liveness.compute f = .ok l := by
  simp only [Function.liveness] at h
  obtain ⟨l', between, hcompute, h⟩ := EStateM.bind_eq_ok.mp h
  rw [Logged.note_bind] at h
  obtain ⟨rfl, -⟩ := EStateM.pure_eq_ok.mp h
  exact (EStateM.ofExcept_eq_ok.mp hcompute).1

/-- **What the rounds leave**: a function that was only spilled, and colours for all registers
of its graph. -/
theorem spills_of_allocateRounds {colors : List Physical} {failure : Error} {left round : Nat}
    {allocation : Allocation}
    (h : allocateRounds colors failure left round f l log = .ok allocation log')
    (hout : allocation.outcome = .ok a) :
    (∃ live, Liveness.compute f = .ok live) ∧ Spills f allocation.function ∧
      ∃ live, Liveness.compute allocation.function = .ok live ∧
        let coloring := (Interference.build allocation.function live).color
          allocation.function.spillInfo colors
        a.colors = coloring.colors ∧ coloring.uncolored = [] := by
  induction left generalizing round f l log with
  | zero =>
    obtain ⟨rfl, -⟩ := EStateM.pure_eq_ok.mp h
    simp at hout
  | succ left ih =>
    simp only [allocateRounds] at h
    obtain ⟨live, between, hlive, h⟩ := EStateM.bind_eq_ok.mp h
    have hcompute := Function.compute_of_liveness hlive
    refine ⟨⟨live, hcompute⟩, ?_⟩
    split at h
    · rename_i huncolored
      rw [Logged.note_bind] at h
      obtain ⟨rfl, -⟩ := EStateM.pure_eq_ok.mp h
      cases hout
      exact ⟨.refl f, live, hcompute, rfl, List.isEmpty_iff.mp huncolored⟩
    · rw [Logged.note_bind] at h
      obtain ⟨-, hspills, hcolored⟩ := ih h
      exact ⟨.step _ hspills, hcolored⟩

theorem Function.allocateRegisters_eq_ok {f' : Function} {l' : Liveness} {options : Options}
    (h : f.allocateRegisters l options log = .ok (f', l', none) log') :
    (∃ live, Liveness.compute f = .ok live) ∧
      ∃ g live a, Spills f g ∧ Liveness.compute g = .ok live ∧ Proper g live a.colors ∧
        f' = g.assign a := by
  simp only [Function.allocateRegisters, Function.allocate] at h
  obtain ⟨allocation, between, hrounds, h⟩ := EStateM.bind_eq_ok.mp h
  cases hout : allocation.outcome with
  | error e =>
    simp only [hout] at h
    obtain ⟨heq, -⟩ := EStateM.pure_eq_ok.mp h
    simp at heq
  | ok a =>
    simp only [hout] at h
    obtain ⟨live, between', hlive, h⟩ := EStateM.bind_eq_ok.mp h
    obtain ⟨hstart, hspills, final, -, hcolors, -⟩ := spills_of_allocateRounds hrounds hout
    refine ⟨hstart, allocation.function, live, a, hspills, compute_of_liveness hlive, ?_⟩
    cases hcheck : allocation.function.checkColors live a.colors with
    | error e =>
      rw [hcheck] at h
      obtain ⟨heq, -⟩ := EStateM.pure_eq_ok.mp h
      simp at heq
    | ok u =>
      rw [hcheck] at h
      obtain ⟨heq, -⟩ := EStateM.pure_eq_ok.mp h
      refine ⟨proper_of_checkColors hcheck ?_, (Prod.mk.inj heq).1.symm⟩
      intro v p hp
      rw [hcolors] at hp
      have hmem := (palette_sublist options.budget).subset (Interference.mem_palette_of_color hp)
      simpa [Physical.isAllocatable] using hmem

/-! ## Runs that look the same -/

section

variable {World : Type} {o o' : Outcome (Store World)}

theorem Outcome.isOutside_congr (h : o.view = o'.view) : o.IsOutside ↔ o'.IsOutside := by
  cases o with
  | «at» b s => cases o' <;> simp [Outcome.view, IsOutside] at h ⊢
  | returned value s => cases o' <;> simp [Outcome.view, IsOutside] at h ⊢
  | halted reason s =>
    cases o' with
    | halted reason' s' =>
      obtain ⟨rfl, -⟩ : reason = reason' ∧ s.store.hide = s'.store.hide := by
        simpa [Outcome.view] using h
      cases reason <;> rfl
    | _ => simp [Outcome.view] at h

theorem Outcome.Agree.view_eq {live : BlockId → RegisterSet} (h : o.Agree colors live o') :
    o.view = o'.view := by
  cases h with
  | «at» A => simp only [Outcome.view, A.store]
  | returned hstore hvalue =>
    rename_i value s s'
    cases value with
    | false => simp [Outcome.view, hstore]
    | true => simp [Outcome.view, hstore, hvalue rfl]
  | halted hstore => simp only [Outcome.view, hstore]

theorem Outcome.Match.view_eq
    (h : o.Match (fun s s' => ∃ extra, InFrame slots lower total extra s s') o') :
    o.view = o'.view := by
  cases h with
  | «at» h =>
    obtain ⟨extra, I⟩ := h
    simp only [Outcome.view, I.store, Store.hide_extend]
  | returned h =>
    obtain ⟨extra, I⟩ := h
    simp only [Outcome.view, I.store, Store.hide_extend, I.physical]
  | halted h =>
    obtain ⟨extra, I⟩ := h
    simp only [Outcome.view, I.store, Store.hide_extend]

/-- Two states that differ in their virtual registers only. -/
structure SamePhysical (s s' : State (Store World)) : Prop where
  store : s.store = s'.store
  physical : ∀ p, s.get (.physical p) = s'.get (.physical p)

namespace SamePhysical

variable {s t : State (Store World)}

theorem symm (h : SamePhysical s t) : SamePhysical t s :=
  ⟨h.store.symm, fun p => (h.physical p).symm⟩

theorem trans (h : SamePhysical s t) (h' : SamePhysical t u) : SamePhysical s u :=
  ⟨h.store.trans h'.store, fun p => (h.physical p).trans (h'.physical p)⟩

end SamePhysical

/-- **What the virtual registers hold at the start does not matter** to a function
that needs none of them there. -/
theorem Function.view_run_eq {f : Function} {l : Liveness} (hlive : LiveSolution f l)
    (hentry : ∀ v, .virtual v ∉ (l.block f.entry).liveIn) (hlast : f.TerminatorsLast)
    {B : Backing (Store World)} (hB : B.ReadsArguments) (count : Nat)
    {s s' : State (Store World)} (h : SamePhysical s s') :
    (f.run B count s).view = (f.run B count s').view := by
  have hself : ∀ p : Physical, replaceBy ∅ (.physical p) = .physical p := fun p => rfl
  have hagree : ∀ t : State (Store World), SamePhysical t s' →
      (f.run B count t).view = ((f.assign {}).run B count s').view := by
    intro t ht
    apply Outcome.Agree.view_eq (Function.agree_runFrom hlive (proper_empty f l) hlast hB count _)
    refine ⟨ht.store, fun r hr _ => ?_, fun p _ => ht.physical p⟩
    cases r with
    | physical p => exact ht.physical p
    | virtual v => exact absurd hr (hentry v)
  rw [hagree s h, hagree s' ⟨rfl, fun _ => rfl⟩]

theorem Function.exists_run_assign {f : Function} {l : Liveness} (hlive : LiveSolution f l)
    (hproper : Proper f l a.colors) (hlast : f.TerminatorsLast) (hB : B.ReadsArguments)
    (s' : State (Store World)) :
    ∃ s, SamePhysical s s' ∧
      ∀ count, (f.run B count s).view = ((f.assign a).run B count s').view := by
  let s : State (Store World) := { s' with registers := fun r => s'.get (replaceBy a.colors r) }
  have hget : ∀ r, s.get r = s'.get (replaceBy a.colors r) := by
    intro r
    by_cases hr : r = .zero
    · subst hr
      rw [State.get_zero]
      exact (State.get_zero s').symm
    · simp [State.get, hr, s]
  refine ⟨s, ⟨rfl, fun p => hget (.physical p)⟩, fun count => ?_⟩
  apply Outcome.Agree.view_eq (Function.agree_runFrom hlive hproper hlast hB count _)
  exact ⟨rfl, fun r _ _ => hget r, fun p _ => hget (.physical p)⟩

theorem exists_inFrame (slots : SpillSlots) (lower total : Nat) (s' : State (Store World)) :
    ∃ s, SamePhysical s s' ∧ InFrame slots lower total s'.store.spilled s s' := by
  let s : State (Store World) := {
    s' with
    registers := fun r => r.casesOn (fun p => s'.registers (.physical p))
      fun v => (slots[v]?.map s'.store.spilled).getD (s'.registers (.virtual v)) }
  have hphysical : ∀ p, s.get (.physical p) = s'.get (.physical p) := fun p => rfl
  refine ⟨s, ⟨rfl, hphysical⟩, ?_, fun p => (hphysical p).symm, ?_, ?_⟩
  · simp [Store.extend, s]
  · intro v _ hv
    simp [State.get, s, hv]
  · intro v id hv
    simp [State.get, s, hv]

/-- **Rounds of spilling do not show**, from the right contents of the virtual registers. -/
theorem Spills.exists_run {f : Function} (h : Spills f g) (E : Environment World)
    (hshared : shared ≤ f.frame.objects.size) (hbelow : ∀ v ∈ f.inUse, v.val < f.virtuals)
    (hlimit : g.virtuals ≤ sizeLimit) (s' : State (Store World)) :
    ∃ s, SamePhysical s s' ∧ ∀ count,
      ¬ (f.run (E.backing shared f.frame.objects.size) count s).IsOutside →
      (f.run (E.backing shared f.frame.objects.size) count s).view =
        (g.run (E.backing shared g.frame.objects.size) count s').view := by
  induction h with
  | refl f => exact ⟨s', ⟨rfl, fun _ => rfl⟩, fun _ _ => rfl⟩
  | @step f g registers hrest ih =>
    have hlimit' := hrest.virtuals_le.trans hlimit
    obtain ⟨s1, hsame1, hview1⟩ := ih (hshared.trans (f.objects_le_spill registers))
      (Function.lt_virtuals_spill hbelow hlimit') hlimit
    obtain ⟨s, hsame, I⟩ := exists_inFrame (allocateSlots f.frame registers).2 f.virtuals
      f.frame.objects.size s1
    refine ⟨s, hsame.trans hsame1, fun count hinside => ?_⟩
    have hview : (f.run (E.backing shared f.frame.objects.size) count s).view =
        ((f.spill registers).run
          (E.backing shared (f.spill registers).frame.objects.size) count s1).view :=
      (Function.match_runFrom_spill E hshared hbelow hlimit' count I hinside).view_eq
    rw [hview]
    exact hview1 count ((Outcome.isOutside_congr hview).not.mp hinside)

/-- **Allocated code behaves like the code before it.**  Whatever the physical
registers, memory and the called functions are, after the same number of blocks
both runs have made the same accesses to memory outside the objects of spilled
registers and the same calls with the same arguments, and have got to the same
block, the same returned value or the same call that does not come back.

The function may not name an object its frame does not have, and the numbers of
the virtual registers may not pass the width of a position. -/
theorem Function.view_run_allocateRegisters {f f' : Function} {l l' : Liveness}
    {options : Options} {log log' : Log}
    (hbelow : ∀ v ∈ f.inUse, v.val < f.virtuals) (hlast : f.TerminatorsLast)
    (hentry : ∀ live, Liveness.compute f = .ok live → ∀ v, .virtual v ∉ (live.block f.entry).liveIn)
    (h : f.allocateRegisters l options log = .ok (f', l', none) log')
    (hlimit : f'.virtuals ≤ sizeLimit) (E : Environment World) {s s' : State (Store World)}
    (hsame : SamePhysical s s') (count : Nat)
    (hinside : ¬ (f.run (E.backing f.frame.objects.size f.frame.objects.size) count s).IsOutside) :
    (f'.run (E.backing f.frame.objects.size f'.frame.objects.size) count s').view =
      (f.run (E.backing f.frame.objects.size f.frame.objects.size) count s).view := by
  obtain ⟨⟨live, hlive⟩, g, live', a, hspills, hlive', hproper, rfl⟩ :=
    Function.allocateRegisters_eq_ok h
  -- back from the final code to contents of the virtual registers before allocation
  obtain ⟨t, ht, hassign⟩ := Function.exists_run_assign (liveSolution_of_compute hlive') hproper
    (hspills.terminatorsLast hlast)
    (E.readsArguments_backing f.frame.objects.size g.frame.objects.size) s'
  obtain ⟨t', ht', hspill⟩ := hspills.exists_run E le_rfl hbelow hlimit t
  have hgarbage := Function.view_run_eq (liveSolution_of_compute hlive) (hentry live hlive) hlast
    (E.readsArguments_backing f.frame.objects.size f.frame.objects.size) count
    (hsame.trans (ht'.trans ht).symm)
  calc ((g.assign a).run (E.backing f.frame.objects.size g.frame.objects.size) count s').view
      = (g.run (E.backing f.frame.objects.size g.frame.objects.size) count t).view :=
        (hassign count).symm
    _ = (f.run (E.backing f.frame.objects.size f.frame.objects.size) count t').view :=
        (hspill count ((Outcome.isOutside_congr hgarbage).not.mp hinside)).symm
    _ = (f.run (E.backing f.frame.objects.size f.frame.objects.size) count s).view := hgarbage.symm

end

/-- A function that keeps four values alive, with any counter of virtual registers. -/
def crowded (virtuals : Nat) : Function :=
  let v (n : Nat) : Register := .virtual ⟨n⟩
  { name := "crowded"
    blocks := ⟨#[
      { id := ⟨0⟩, label := "entry"
        code := [
          .li (v 0) 1, .li (v 1) 2, .li (v 2) 4, .li (v 3) 8,
          .alu .add (v 4) (v 0) (v 1), .alu .add (v 5) (v 4) (v 2), .alu .add (v 6) (v 5) (v 3),
          .mv (.physical .a0) (v 6), .ret true] }]⟩
    virtuals }

theorem lt_of_mem_inUse_crowded (hv : v ∈ (crowded n).inUse) : v.val < 7 := by
  have hall : (crowded 0).inUse.toList.all (fun v => v.val < 7) = true := by decide +kernel
  have hmem : v ∈ (crowded 0).inUse.toList := Std.ExtTreeSet.mem_toList.mpr hv
  simpa using List.all_eq_true.mp hall v hmem

theorem entry_crowded (h : Liveness.compute (crowded n) = .ok live) (v : VirtualId) :
    .virtual v ∉ (live.block (crowded n).entry).liveIn := by
  have hall : (Liveness.compute (crowded 0)).toOption.map
      (fun live => (live.block ⟨0⟩).liveIn.toList.all fun r => r.virtual?.isNone) = some true := by
    decide +kernel
  rw [show Liveness.compute (crowded 0) = .ok live from h] at hall
  intro hv
  have hmem := Std.ExtTreeSet.mem_toList.mpr hv
  simpa [Register.virtual?] using List.all_eq_true.mp (Option.some.inj hall) _ hmem

/-- Three of the four values are spilled when there are three registers, and the
function behaves as before. -/
theorem view_run_allocateRegisters_crowded :
    ∃ f' l' log', (crowded 7).allocateRegisters {} { budget := some 3 } #[] =
        .ok (f', l', none) log' ∧ f'.frame.objects.size = 3 ∧ f'.virtuals = 13 ∧
      ∀ (E : Environment Unit) (s s' : State (Store Unit)), SamePhysical s s' → ∀ count,
        (f'.run (E.backing 0 3) count s').view =
          ((crowded 7).run (E.backing 0 0) count s).view := by
  have hsizes : (match (crowded 7).allocateRegisters {} { budget := some 3 } #[] with
      | .ok (f', _, none) _ => some (f'.frame.objects.size, f'.virtuals)
      | _ => none) = some (3, 13) := by decide +kernel
  split at hsizes
  · rename_i f' l' log' h
    obtain ⟨hsize, hvirtuals⟩ := Prod.mk.inj (Option.some.inj hsizes)
    refine ⟨f', l', log', h, hsize, hvirtuals, fun E s s' hsame count => ?_⟩
    rw [← hsize]
    refine Function.view_run_allocateRegisters (fun v => lt_of_mem_inUse_crowded) (by decide)
      (fun live => entry_crowded) h (hvirtuals ▸ by decide) E hsame count ?_
    cases count <;> exact id
  · simp at hsizes

/-- Surroundings in which no call comes back. -/
def idle : Environment Unit where
  symbol _ := 0
  slot _ := 0
  call _ _ _ := none

def blank : State (Store Unit) where
  registers _ := 0
  store :=
    { memory := fun _ => 0, world := (), trace := [], incoming := fun _ => 0
      outgoing := fun _ => none, spilled := fun _ => 0 }

def View.value? {World : Type} : View World → Option Word
  | .returned value _ => value
  | _ => none

/-- **Numbers that pass the width of a position meet the old registers.**  With the
counter at the end of the positions, the temporary of a spilled register is `%v0`
again and takes the place of another value. -/
theorem view_run_allocateRegisters_wraps :
    (∀ v ∈ (crowded sizeLimit).inUse, v.val < (crowded sizeLimit).virtuals) ∧
      (crowded sizeLimit).TerminatorsLast ∧
      (∀ live, Liveness.compute (crowded sizeLimit) = .ok live →
        ∀ v, .virtual v ∉ (live.block (crowded sizeLimit).entry).liveIn) ∧
      ∃ f' l' log', (crowded sizeLimit).allocateRegisters {} { budget := some 3 } #[] =
          .ok (f', l', none) log' ∧
        ∃ (E : Environment Unit) (s : State (Store Unit)),
          ¬ ((crowded sizeLimit).run (E.backing 0 0) 1 s).IsOutside ∧
          (f'.run (E.backing 0 f'.frame.objects.size) 1 s).view ≠
            ((crowded sizeLimit).run (E.backing 0 0) 1 s).view := by
  have hbefore : ((crowded sizeLimit).run (idle.backing 0 0) 1 blank).view.value? = some 15 := by
    decide +kernel
  have hafter : (match (crowded sizeLimit).allocateRegisters {} { budget := some 3 } #[] with
      | .ok (f', _, none) _ => (f'.run (idle.backing 0 f'.frame.objects.size) 1 blank).view.value?
      | _ => none) = some 14 := by decide +kernel
  refine ⟨fun v hv => (lt_of_mem_inUse_crowded hv).trans (by decide), by decide,
    fun live => entry_crowded, ?_⟩
  split at hafter
  · rename_i f' l' log' h
    refine ⟨f', l', log', h, idle, blank, id, fun hview => ?_⟩
    rw [hview, hbefore] at hafter
    simp at hafter
  · simp at hafter

end MxStar.Machine
