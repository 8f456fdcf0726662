import MxStar.Proofs.Machine.Clash
import MxStar.Proofs.Machine.Run

/-!
# Putting registers in their places

An assignment replaces virtual registers by physical ones and drops the moves
that have become empty.  The code it leaves does what the code did before, in
the same blocks, as long as clashing registers have different places.

The relation between the two runs is `Agrees`: what stands behind the registers
is the same, and every *live* register has its value at its place.  A register
that is not live may hold anything.  A definition keeps the relation because
each register that is live after it either clashes with it, and so stands
elsewhere, or is the source of a move and holds the value that is written.
-/

namespace MxStar.Machine

theorem isTracked_replaceBy
    (hall : ∀ (v : VirtualId) (p : Physical), colors[v]? = some p → p.isAllocatable = true)
    (r : Register) : (replaceBy colors r).isTracked = r.isTracked := by
  cases r with
  | physical p => rfl
  | virtual v =>
    simp only [replaceBy]
    cases hv : colors[v]? with
    | none => rfl
    | some p => exact hall v p hv

theorem ne_zero_of_isTracked {r : Register} (h : r.isTracked = true) : r ≠ .zero := by
  rintro rfl
  exact absurd h (by decide)

theorem exists_physical_of_not_isTracked {r : Register} (h : ¬ r.isTracked = true) :
    ∃ p, r = .physical p ∧ p.isAllocatable = false := by
  cases r with
  | physical p => exact ⟨p, rfl, by simpa [Register.isTracked] using h⟩
  | virtual v => simp [Register.isTracked] at h

section

variable {σ : Type}

/-- The second state has the live registers of the first in their places. -/
structure Agrees (colors : Colors) (live : RegisterSet) (s s' : State σ) : Prop where
  store : s.store = s'.store
  live : ∀ r ∈ live, r.isTracked = true → s.get r = s'.get (replaceBy colors r)
  reserved : ∀ p : Physical, p.isAllocatable = false → s.get (.physical p) = s'.get (.physical p)

variable {code : List Instr}

namespace Agrees

variable {colors : Colors} {live after : RegisterSet} {s s' : State σ} {i : Instr}

theorem mono (A : Agrees colors live s s') (h : ∀ r ∈ after, r ∈ live) :
    Agrees colors after s s' where
  store := A.store
  live := fun r hr ht => A.live r (h r hr) ht
  reserved := A.reserved

theorem congr_right (A : Agrees colors live s s') (hstore : s'.store = s''.store)
    (hget : ∀ r, s'.get r = s''.get r) : Agrees colors live s s'' where
  store := A.store.trans hstore
  live := fun r hr ht => (A.live r hr ht).trans (hget _)
  reserved := fun p hp => (A.reserved p hp).trans (hget _)

theorem get_of_mem_reads (A : Agrees colors (i.liveBefore after) s s') {r : Register}
    (hr : r ∈ i.reads) : s.get r = s'.get (replaceBy colors r) := by
  by_cases ht : r.isTracked = true
  · exact A.live r ((i.mem_liveBefore after r).mpr (Or.inl (Instr.mem_uses.mpr ⟨hr, ht⟩))) ht
  · obtain ⟨p, rfl, hp⟩ := exists_physical_of_not_isTracked ht
    exact A.reserved p hp

theorem effect_eq (hB : B.ReadsArguments) (A : Agrees colors (i.liveBefore after) s s') :
    (i.mapRegisters (replaceBy colors)).effect B s'.store s'.get =
      (i.effect B s.store s.get).rename (replaceBy colors) := by
  have hcongr : i.effect B s.store s.get =
      i.effect B s.store fun r => s'.get (replaceBy colors r) := by
    apply i.effect_congr hB
    · exact A.reserved .sp (by decide)
    · intro r hr
      exact A.get_of_mem_reads hr
  rw [hcongr, A.store, Instr.effect_mapRegisters B s'.store s'.get (fun p => rfl) i]

theorem withStore (A : Agrees colors live s s') (store : σ) :
    Agrees colors live { s with store } { s' with store } where
  store := rfl
  live := A.live
  reserved := A.reserved

theorem next (A : Agrees colors (i.liveBefore after) s s') (hw : i.writes = []) :
    Agrees colors after s s' := by
  apply A.mono
  intro r hr
  rw [Instr.mem_liveBefore]
  exact Or.inr ⟨hr, by simp [Instr.mem_defs, hw]⟩

variable (hall : ∀ (v : VirtualId) (p : Physical), colors[v]? = some p → p.isAllocatable = true)
include hall

/-- **A definition keeps the agreement.**  A register that is live after it
stands elsewhere, or is the source of the move that is carried out. -/
theorem write (A : Agrees colors (i.liveBefore after) s s') {rd : Register} (hw : i.writes = [rd])
    (hclash : ∀ r ∈ Interference.clashing i after, rd ∈ i.defs → r ≠ rd →
      replaceBy colors rd ≠ replaceBy colors r) {value : Word}
    (hmove : ∀ rs, i = .mv rd rs → value = s.get rs) (store : σ) :
    Agrees colors after (State.set { s with store } rd value)
      (State.set { s' with store } (replaceBy colors rd) value) where
  store := rfl
  live := by
    intro r hr ht
    have hzero := ne_zero_of_isTracked ht
    have hplace : replaceBy colors r ≠ .zero :=
      ne_zero_of_isTracked ((isTracked_replaceBy hall r).trans ht)
    by_cases hrd : r = rd
    · subst hrd
      rw [State.get_set_self _ _ hzero, State.get_set_self _ _ hplace]
    · have hbefore : s.get r = s'.get (replaceBy colors r) := by
        apply A.live r _ ht
        rw [Instr.mem_liveBefore]
        exact Or.inr ⟨hr, by simp [Instr.mem_defs, hw, hrd]⟩
      rw [State.get_set_of_ne _ _ hrd]
      refine hbefore.trans ?_
      by_cases hshare : replaceBy colors r = replaceBy colors rd
      · -- both have one place, so this is a move and `r` its source
        have hdef : rd ∈ i.defs := by
          rw [Instr.mem_defs, hw]
          refine ⟨by simp, ?_⟩
          rw [← isTracked_replaceBy hall, ← hshare, isTracked_replaceBy hall]
          exact ht
        have hsource : r ∉ Interference.clashing i after := fun hmem =>
          hclash r hmem hdef hrd hshare.symm
        rw [hshare, State.get_set_self _ _ (hshare ▸ hplace), ← hshare, ← hbefore]
        cases i with
        | mv rd' rs =>
          obtain rfl : rd' = rd := by simpa [Instr.writes, Instr.operands] using hw
          have hrs : r = rs := by
            by_contra hne
            apply hsource
            simp only [Interference.clashing, Std.ExtTreeSet.mem_erase, ne_eq,
              Std.compare_eq_iff_eq]
            exact ⟨fun h => hne h.symm, hr⟩
          rw [hmove rs rfl, hrs]
        | _ => exact absurd hr hsource
      · rw [State.get_set_of_ne _ _ hshare]
        rfl
  reserved := by
    intro p hp
    have hreserved : (Register.physical p).isTracked = false := hp
    by_cases hrd : rd.isTracked = true
    · have hne : Register.physical p ≠ rd := by
        rintro rfl
        simp [hreserved] at hrd
      have hne' : Register.physical p ≠ replaceBy colors rd := by
        intro heq
        rw [← isTracked_replaceBy hall, ← heq, hreserved] at hrd
        simp at hrd
      rw [State.get_set_of_ne _ _ hne, State.get_set_of_ne _ _ hne']
      exact A.reserved p hp
    · obtain ⟨q, rfl, -⟩ := exists_physical_of_not_isTracked hrd
      rw [show replaceBy colors (.physical q) = .physical q from rfl, State.get_set, State.get_set]
      simp only [State.get_mk, A.reserved p hp]

/-- **A call keeps the agreement.**  It clashes with every register that lives on
and so nothing that lives on stands in a register it overwrites. -/
theorem clobber (A : Agrees colors ((Instr.call symbol arguments).liveBefore after) s s')
    (hclash : ∀ r ∈ after, ∀ d ∈ (Instr.call symbol arguments).defs, r ≠ d →
      replaceBy colors d ≠ replaceBy colors r)
    (values : Physical → Word) (store : σ) :
    Agrees colors after (State.clobber { s with store } values)
      (State.clobber { s' with store } values) where
  store := rfl
  live := by
    intro r hr ht
    have hkept : r ∉ (Instr.call symbol arguments).defs →
        s.get r = s'.get (replaceBy colors r) := by
      intro hdef
      apply A.live r _ ht
      rw [Instr.mem_liveBefore]
      exact Or.inr ⟨hr, hdef⟩
    cases r with
    | physical p =>
      rw [show replaceBy colors (.physical p) = .physical p from rfl, State.get_clobber_physical,
        State.get_clobber_physical]
      split
      · rfl
      · rename_i hp
        apply hkept
        intro hdef
        have hmem : p ∈ Physical.callerSaved := by
          simpa [Instr.writes] using (Instr.mem_defs.mp hdef).1
        exact hp (.tail _ hmem)
    | virtual v =>
      have hbefore := hkept (by simp [Instr.mem_defs, Instr.writes])
      rw [State.get_clobber_virtual]
      refine hbefore.trans ?_
      simp only [replaceBy]
      cases hv : colors[v]? with
      | none => simp
      | some p =>
        refine (if_neg ?_).symm.trans (State.get_clobber_physical _ _ _).symm
        intro hp
        have htracked := hall v p hv
        have hsaved : p ∈ Physical.callerSaved := by
          rcases List.mem_cons.mp hp with rfl | hp
          · exact absurd htracked (by decide)
          · exact hp
        have hdef : Register.physical p ∈ (Instr.call symbol arguments).defs := by
          rw [Instr.mem_defs]
          exact ⟨List.mem_map_of_mem hsaved, htracked⟩
        exact hclash _ hr _ hdef (by simp) (by simp [replaceBy, hv])
  reserved := by
    intro p hp
    rw [State.get_clobber_physical, State.get_clobber_physical]
    simp only [State.get_mk, A.reserved p hp]

end Agrees

/-- Two runs have got to the same place and agree there. -/
inductive Outcome.Agree (colors : Colors) (live : BlockId → RegisterSet) :
    Outcome σ → Outcome σ → Prop
  | at {b s s'} : Agrees colors (live b) s s' → Agree colors live (.at b s) (.at b s')
  | returned {value s s'} : s.store = s'.store →
      (value = true → s.get (.physical Physical.result) = s'.get (.physical Physical.result)) →
      Agree colors live (.returned value s) (.returned value s')
  | halted {reason s s'} : s.store = s'.store →
      Agree colors live (.halted reason s) (.halted reason s')

namespace Outcome

variable {live live' : BlockId → RegisterSet}

theorem Agree.mono {o o' : Outcome σ} (h : o.Agree colors live o')
    (hlive : ∀ b s, o = .at b s → ∀ r ∈ live' b, r ∈ live b) : o.Agree colors live' o' := by
  cases h with
  | «at» A => exact .at (A.mono (hlive _ _ rfl))
  | returned hstore hvalue => exact .returned hstore hvalue
  | halted hstore => exact .halted hstore

end Outcome

theorem eq_mv_of_isEmptyMove {f : Register → Register} {i : Instr}
    (h : (i.mapRegisters f).isEmptyMove = true) : ∃ rd rs, i = .mv rd rs ∧ f rd = f rs := by
  cases i with
  | mv rd rs => exact ⟨rd, rs, rfl, by simpa [Instr.mapRegisters, Instr.isEmptyMove] using h⟩
  | _ => simp [Instr.mapRegisters, Instr.isEmptyMove] at h

theorem State.get_set_get (s : State σ) (r q : Register) : (s.set r (s.get r)).get q = s.get q := by
  by_cases hq : q = .zero
  · simp [hq]
  · by_cases hr : q = r
    · subst hr
      rw [State.get_set_self _ _ hq]
    · rw [State.get_set_of_ne _ _ hr]

theorem mem_targets_of_runCode (h : runCode B code s = .at b s') (hlast : TerminatorLast code) :
    ∃ i, code.getLast? = some i ∧ i.isTerminator = true ∧ b ∈ i.targets := by
  induction code generalizing s with
  | nil => simp [runCode] at h
  | cons i rest ih =>
    have hstep : ∀ t, runCode B rest t = .at b s' →
        ∃ j, (i :: rest).getLast? = some j ∧ j.isTerminator = true ∧ b ∈ j.targets := by
      intro t ht
      obtain ⟨j, hj, hterm⟩ := ih ht hlast.2
      exact ⟨j, by rw [List.getLast?_cons, hj]; rfl, hterm⟩
    have hfits := i.effect_fits B s.store s.get
    simp only [runCode] at h
    split at h
    · exact hstep _ h
    · exact hstep _ h
    · exact hstep _ h
    · rename_i target heff
      rw [heff] at hfits
      obtain ⟨rfl, -⟩ : target = b ∧ s = s' := by simpa using h
      obtain rfl : rest = [] := hlast.1 hfits.1
      exact ⟨i, rfl, hfits⟩
    · simp at h
    · simp at h

theorem agree_runCode (hB : B.ReadsArguments) {colors : Colors}
    (hall : ∀ (v : VirtualId) (p : Physical), colors[v]? = some p → p.isAllocatable = true)
    {out : RegisterSet}
    (hclash : ∀ d r, CodeClash code out d r → replaceBy colors d ≠ replaceBy colors r)
    (hlast : TerminatorLast code) {s s' : State σ} (A : Agrees colors (liveBefore code out) s s') :
    (runCode B code s).Agree colors (fun _ => out)
      (runCode B ((code.map (·.mapRegisters (replaceBy colors))).filter (!·.isEmptyMove)) s') := by
  induction code generalizing s s' with
  | nil => exact .halted A.store
  | cons i rest ih =>
    have hstep := fun {t t' : State σ} => @ih
      (fun d r h => hclash d r (codeClash_cons.mpr (Or.inr h))) hlast.2 t t'
    have heffect := A.effect_eq hB
    have hfits := i.effect_fits B s.store s.get
    have hwrite : ∀ {rd : Register} {value : Word} {store : σ},
        i.effect B s.store s.get = .write rd value store →
        Agrees colors (liveBefore rest out) (State.set { s with store } rd value)
          (State.set { s' with store } (replaceBy colors rd) value) := by
      intro rd value store heff
      rw [heff] at hfits
      apply A.write hall hfits
      · intro r hr hrd hne
        exact hclash rd r (codeClash_cons.mpr (Or.inl ⟨hrd, hr, hne⟩))
      · rintro rs rfl
        exact (Effect.write.inj heff).2.1.symm
    rw [List.map_cons, List.filter_cons]
    by_cases hempty : (i.mapRegisters (replaceBy colors)).isEmptyMove = true
    · -- the move is dropped: its destination already holds the value
      obtain ⟨rd, rs, rfl, hplace⟩ := eq_mv_of_isEmptyMove hempty
      rw [if_neg (by simpa using hempty)]
      apply hstep
      apply (hwrite rfl).congr_right
      · exact A.store
      · intro r
        rw [A.get_of_mem_reads (by simp [Instr.reads, Instr.operands] : rs ∈ _), ← hplace]
        exact State.get_set_get { s' with store := s.store } _ r
    · rw [if_pos (by simpa using hempty)]
      simp only [runCode]
      rw [heffect]
      cases heff : i.effect B s.store s.get with
      | next store =>
        rw [heff] at hfits
        exact hstep ((A.next hfits).withStore store)
      | write rd value store => exact hstep (hwrite heff)
      | clobber after store =>
        rw [heff] at hfits
        obtain ⟨symbol, arguments, rfl⟩ := hfits
        refine hstep (A.clobber hall ?_ after store)
        intro r hr d hd hne
        exact hclash d r (codeClash_cons.mpr (Or.inl ⟨hd, hr, hne⟩))
      | goto target =>
        rw [heff] at hfits
        obtain rfl : rest = [] := hlast.1 hfits.1
        exact .at (A.next (Instr.writes_of_isTerminator hfits.1))
      | ret value =>
        rw [heff] at hfits
        subst hfits
        refine .returned A.store fun hvalue => ?_
        subst hvalue
        exact A.get_of_mem_reads (by simp [Instr.reads])
      | halt reason store => exact .halted rfl

theorem Function.agree_runFrom {f : Function} {l : Liveness} {a : Assignment}
    (hlive : LiveSolution f l) (hproper : Proper f l a.colors) (hlast : f.TerminatorsLast)
    (hB : B.ReadsArguments) (count : Nat) {s s' : State σ}
    (A : Agrees a.colors (l.block b).liveIn s s') :
    (f.runFrom B count b s).Agree a.colors (fun b => (l.block b).liveIn)
      ((f.assign a).runFrom B count b s') := by
  induction count generalizing b s s' with
  | zero => exact .at A
  | succ count ih =>
    have hblock : (f.runBlock B b s).Agree a.colors (fun b => (l.block b).liveIn)
        ((f.assign a).runBlock B b s') := by
      have hget : (f.assign a).blocks.get? b = (f.blocks.get? b).map (Block.assign a.colors) :=
        Table.get?_map _ _ _
      simp only [Function.runBlock, hget]
      cases hb : f.blocks.get? b with
      | none => exact .halted A.store
      | some block =>
        have hcode := agree_runCode hB hproper.allocatable
          (fun d r h => hproper.distinct d r ⟨b, block, hb, h⟩) (hlast.of_get? hb)
          (A.mono fun r hr => (hlive.mem_liveIn hb r).mpr hr)
        refine hcode.mono fun target t hat r hr => ?_
        obtain ⟨i, hi, hterm, htarget⟩ := mem_targets_of_runCode hat (hlast.of_get? hb)
        apply (hlive.mem_liveOut hb r).mpr
        refine ⟨target, ?_, hr⟩
        simpa [Block.targets, Block.terminator?, hi, Option.filter, hterm] using htarget
    simp only [Function.runFrom]
    generalize f.runBlock B b s = o at hblock
    generalize (f.assign a).runBlock B b s' = o' at hblock
    cases hblock with
    | «at» A => exact ih A
    | returned hstore hvalue => exact .returned hstore hvalue
    | halted hstore => exact .halted hstore

end

end MxStar.Machine
