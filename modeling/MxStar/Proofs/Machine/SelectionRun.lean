import MxStar.Machine.Unit
import MxStar.Proofs.Machine.SelectionInstr

/-!
# Selection keeps what a function does

The code selected for a flow graph goes through the same blocks as the graph,
and at the start of each block the two states agree (`Lockstep`).  Instructions
were dealt with one by one; here blocks are put together from them, and the
whole run is followed block by block.

The only block with code of its own is the entry, which receives the parameters
first.  So control must not come back to the entry.
-/

namespace MxStar.Machine

open MxStar.Flow (Operand RegisterId)

variable {source : Flow.Function} {program : Flow.Program} {options : Options}

section

variable {World : Type}

/-- Two runs have got to the same place, and the states there are related.  A
block of the machine stands for the block at its place in the layout. -/
def Lockstep (layout : List Flow.BlockId) (R : Flow.State World → State (Store World) → Prop) :
    Flow.Outcome World → Outcome (Store World) → Prop
  | .at b fs, .at place s => layout[place.val]? = some b ∧ R fs s
  | .returned value fs, .returned hasValue s =>
    hasValue = value.isSome ∧ (∀ w, value = some w → s.get (.physical Physical.result) = w) ∧
      Seen fs s.store
  | .hung fs, .halted .hung s => Seen fs s.store
  | _, _ => False

theorem Lockstep.mono {R R' : Flow.State World → State (Store World) → Prop}
    (hR : ∀ fs s, R fs s → R' fs s) (h : Lockstep layout R a b) : Lockstep layout R' a b := by
  cases a with
  | «at» block fs =>
    cases b with
    | «at» place s => exact ⟨h.1, hR fs s h.2⟩
    | _ => exact h.elim
  | returned value fs =>
    cases b with
    | returned hasValue s => exact h
    | _ => exact h.elim
  | hung fs =>
    cases b with
    | halted reason s =>
      cases reason with
      | hung => exact h
      | _ => exact h.elim
    | _ => exact h.elim
  | stuck => exact h.elim

variable {sel : Selector} {E : Environment World} {sp : Word} {n n' : Naming} {code : List Instr}

/-! ## Blocks -/

theorem runs_comment {listing : Except Error String} (h : sel.comment listing = .ok code)
    (s : State (Store World)) : Runs B code s s := by
  simp only [Selector.comment] at h
  split at h
  · cases listing with
    | error e => simp [bind, Except.bind] at h
    | ok text =>
      obtain rfl := Except.ok.inj h
      exact Runs.next rfl
  · obtain rfl := Except.ok.inj h
    exact Runs.nil

theorem selectInstrs_cons_eq_ok (h : sel.selectInstrs (i :: rest) n = .ok (code, n')) :
    ∃ comment code1 code2 n1,
      sel.comment (sel.source.instrListing sel.options.style i) = .ok comment ∧
      sel.selectInstr i n = .ok (code1, n1) ∧ sel.selectInstrs rest n1 = .ok (code2, n') ∧
      code = comment ++ code1 ++ code2 := by
  simp only [Selector.selectInstrs] at h
  obtain ⟨comment, hlisting, h⟩ := Select.lift_bind_eq_ok.mp h
  obtain ⟨code1, n1, hi, code2, hrest, rfl⟩ := Select.bind2_pure_eq_ok.mp h
  exact ⟨comment, code1, code2, n1, hlisting, hi, hrest, rfl⟩

theorem follows_selectInstrs (hn : n.Sound)
    (hcell : ∀ i ∈ instrs, ∀ r, i.assigned? = some r → sel.slot? r = none)
    (h : sel.selectInstrs instrs n = .ok (code, n')) :
    Follows sel E n n' (Flow.runInstrs (E.flow sp) sel.program sel.source instrs) code := by
  induction instrs generalizing n code with
  | nil =>
    obtain ⟨rfl, rfl⟩ := Select.pure_eq_ok.mp h
    refine ⟨hn, .refl n, ?_, ?_⟩
    · intro N _ _ fs s fs' C hexec
      obtain rfl := Flow.Step.next.inj hexec
      exact ⟨s, Runs.nil, C⟩
    · intro N _ _ fs s fs' _ hexec
      simp [Flow.runInstrs] at hexec
  | cons i rest ih =>
    obtain ⟨comment, code1, code2, n1, hlisting, hi, hrest, rfl⟩ := selectInstrs_cons_eq_ok h
    have P : Performs sel E sp n n1 i code1 := performs_selectInstr hn (hcell i (.head _)) hi
    have Q := ih P.sound (fun j hj => hcell j (.tail _ hj)) hrest
    refine ⟨Q.sound, P.grows.trans Q.grows, ?_, ?_⟩
    · intro N hN hN' fs s fs' C hexec
      simp only [Flow.runInstrs] at hexec
      split at hexec
      · rename_i fs1 hstep
        obtain ⟨s1, hrun1, C1⟩ := P.next N hN (Q.grows.trans hN') fs s fs1 C hstep
        obtain ⟨s2, hrun2, C2⟩ := Q.next N hN hN' fs1 s1 fs' C1 hexec
        exact ⟨s2, ((runs_comment hlisting s).append hrun1).append hrun2, C2⟩
      · rename_i hne
        exact absurd hexec (hne fs')
    · intro N hN hN' fs s fs' C hexec
      simp only [Flow.runInstrs] at hexec
      split at hexec
      · rename_i fs1 hstep
        obtain ⟨s1, hrun1, C1⟩ := P.next N hN (Q.grows.trans hN') fs s fs1 C hstep
        obtain ⟨s2, hhangs, hseen⟩ := Q.hung N hN hN' fs1 s1 fs' C1 hexec
        exact ⟨s2, hhangs.prepend ((runs_comment hlisting s).append hrun1), hseen⟩
      · obtain ⟨s1, hhangs, hseen⟩ := P.hung N hN (Q.grows.trans hN') fs s fs' C hexec
        exact ⟨s1, (hhangs.prepend (runs_comment hlisting s)).append _, hseen⟩

theorem getElem?_of_position (h : sel.position b = .ok place) :
    sel.source.layout[place.val]? = some b := by
  simp only [Selector.position] at h
  split at h
  · rename_i b' i hfind
    cases h
    have hmem := List.mem_of_find?_eq_some hfind
    rw [List.mem_reverse, List.mem_zipIdx_iff_getElem?] at hmem
    obtain rfl : b' = b := by simpa using List.find?_some hfind
    simpa using hmem
  · cases hb : sel.source.blocks.find b with
    | error e => simp [hb, bind, Except.bind] at h
    | ok block => simp [hb, bind, Except.bind, throw, throwThe, MonadExceptOf.throw] at h

theorem selectBranch_eq_ok
    (h : sel.selectTerminator (.branch condition positive negative) n = .ok (code, n')) :
    ∃ place place', sel.position positive = .ok place ∧ sel.position negative = .ok place' ∧
      (positive = negative ∧ code = [.jump place] ∧ n' = n ∨ positive ≠ negative ∧ ∃ r code1,
        sel.operand condition n = .ok ((r, code1), n') ∧
          code = code1 ++ [.branch r place place']) := by
  simp only [Selector.selectTerminator] at h
  obtain ⟨place, hpos, h⟩ := Select.lift_bind_eq_ok.mp h
  obtain ⟨place', hneg, h⟩ := Select.lift_bind_eq_ok.mp h
  refine ⟨place, place', hpos, hneg, ?_⟩
  split at h
  · rename_i heq
    obtain ⟨rfl, rfl⟩ := Select.pure_eq_ok.mp h
    -- the layout lists one block at the place
    refine .inl ⟨Option.mem_unique (getElem?_of_position hpos) ?_, rfl, rfl⟩
    exact heq ▸ getElem?_of_position hneg
  · rename_i hne
    obtain ⟨⟨r, code1⟩, ho, rfl⟩ := Select.bind_pure_eq_ok.mp h
    refine .inr ⟨fun heq => hne ?_, r, code1, ho, rfl⟩
    exact Except.ok.inj (hpos.symm.trans (heq ▸ hneg))

theorem lockstep_selectTerminator (hn : n.Sound) (h : sel.selectTerminator t n = .ok (code, n')) :
    n'.Sound ∧ n.Grows n' ∧ ∀ N, n'.Grows N → ∀ fs s, Carries sel E N fs s →
      t.exec (E.flow sp) fs ≠ .stuck →
      Lockstep sel.source.layout (Carries sel E N) (t.exec (E.flow sp) fs)
        (runCode (sel.backing E) code s) := by
  cases t with
  | jump destination =>
    simp only [Selector.selectTerminator] at h
    obtain ⟨place, hat, h⟩ := Select.lift_bind_eq_ok.mp h
    obtain ⟨rfl, rfl⟩ := Select.pure_eq_ok.mp h
    exact ⟨hn, .refl n, fun N _ fs s C _ => ⟨getElem?_of_position hat, C⟩⟩
  | branch condition positive negative =>
    obtain ⟨place, place', hpos, hneg, hcode⟩ := selectBranch_eq_ok h
    have hlayout := getElem?_of_position hpos
    have hlayout' := getElem?_of_position hneg
    rcases hcode with ⟨rfl, rfl, rfl⟩ | ⟨-, r, code1, ho, rfl⟩
    · refine ⟨hn, .refl n', fun N _ fs s C hstuck => ?_⟩
      simp only [Flow.Terminator.exec] at hstuck ⊢
      split at hstuck
      · rename_i w hw
        simp only [ite_self]
        exact ⟨hlayout, C⟩
      · exact absurd rfl hstuck
    · have P : Prepares sel E sp n n' condition r code1 := prepares_operand hn ho
      refine ⟨P.sound, P.grows, fun N hN fs s C hstuck => ?_⟩
      simp only [Flow.Terminator.exec] at hstuck ⊢
      split at hstuck
      · rename_i w hw
        obtain ⟨s1, hrun, hkeeps, rfl⟩ := P.delivers N hN fs s w C hw
        rw [hrun]
        refine ⟨?_, C.keeps hkeeps⟩
        split
        · exact hlayout'
        · exact hlayout
      · exact absurd rfl hstuck
  | ret value =>
    cases value with
    | none =>
      obtain ⟨rfl, rfl⟩ := Select.pure_eq_ok.mp h
      exact ⟨hn, .refl n, fun N _ fs s C _ => ⟨rfl, by simp, C.seen⟩⟩
    | some value =>
      simp only [Selector.selectTerminator] at h
      obtain ⟨⟨r, code1⟩, ho, rfl⟩ := Select.bind_pure_eq_ok.mp h
      have P : Prepares sel E sp n n' value r code1 := prepares_operand hn ho
      refine ⟨P.sound, P.grows, fun N hN fs s C hstuck => ?_⟩
      simp only [Flow.Terminator.exec] at hstuck ⊢
      split at hstuck
      · rename_i w hw
        obtain ⟨s1, hrun, hkeeps, rfl⟩ := P.delivers N hN fs s w C hw
        rw [hrun]
        refine ⟨rfl, ?_, (C.keeps hkeeps).seen⟩
        intro w hw
        cases hw
        exact State.get_set_self _ _ (by decide)
      · exact absurd rfl hstuck

/-- The code does what a block of the graph does. -/
def Simulates (sel : Selector) (E : Environment World) (sp : Word) (N : Naming) (b : Flow.Block)
    (code : List Instr) : Prop :=
  ∀ fs s, Carries sel E N fs s → b.run (E.flow sp) sel.program sel.source fs ≠ .stuck →
    Lockstep sel.source.layout (Carries sel E N) (b.run (E.flow sp) sel.program sel.source fs)
      (runCode (sel.backing E) code s)

theorem simulates_selectBlock {id : Flow.BlockId} (hn : n.Sound)
    (hcell : ∀ i ∈ b.instrs.toList, ∀ r, i.assigned? = some r → sel.slot? r = none)
    (h : sel.selectBlock id b n = .ok ((place, code), n')) :
    n'.Sound ∧ n.Grows n' ∧ sel.position id = .ok place ∧
      ∀ N, N.Sound → n'.Grows N → Simulates sel E sp N b code := by
  simp only [Selector.selectBlock] at h
  obtain ⟨place', hat, h⟩ := Select.lift_bind_eq_ok.mp h
  obtain ⟨code1, n1, hinstrs, h⟩ := Select.bind_eq_ok.mp h
  have F : Follows sel E n n1 (Flow.runInstrs (E.flow sp) sel.program sel.source b.instrs.toList)
      code1 := follows_selectInstrs hn hcell hinstrs
  cases hterm : b.terminator with
  | none =>
    simp only [hterm] at h
    simp [throw, throwThe, MonadExceptOf.throw, StateT.lift, bind, Except.bind] at h
  | some t =>
    simp only [hterm] at h
    obtain ⟨comment, hlisting, h⟩ := Select.lift_bind_eq_ok.mp h
    obtain ⟨code2, ht, ⟨⟩⟩ := Select.bind_pure_eq_ok.mp h
    obtain ⟨hsound, hgrows, hend⟩ := lockstep_selectTerminator (E := E) F.sound ht
    refine ⟨hsound, F.grows.trans hgrows, hat, ?_⟩
    intro N hN hN' fs s C hstuck
    have hN1 := hgrows.trans hN'
    simp only [Flow.Block.run, hterm] at hstuck ⊢
    split at hstuck
    · rename_i fs1 hrun
      obtain ⟨s1, hruns, C1⟩ := F.next N hN hN1 fs s fs1 C hrun
      rw [hruns.append (runs_comment hlisting s1)]
      exact hend N hN' fs1 s1 C1 hstuck
    · rename_i fs1 hrun
      obtain ⟨s1, hhangs, hseen⟩ := F.hung N hN hN1 fs s fs1 C hrun
      rw [hhangs.append comment]
      exact hseen
    · exact absurd rfl hstuck

theorem simulates_blocks (E : Environment World) (sp : Word)
    {blocks : List (Flow.BlockId × Flow.Block)} (hn : n.Sound)
    (hcell : ∀ p ∈ blocks, ∀ i ∈ p.2.instrs.toList, ∀ r, i.assigned? = some r → sel.slot? r = none)
    (h : blocks.mapM (fun p => sel.selectBlock p.1 p.2) n = .ok (pieces, n')) :
    n'.Sound ∧ n.Grows n' ∧ pieces.length = blocks.length ∧
      ∀ (j : Nat) id b, blocks[j]? = some (id, b) → ∃ place code, pieces[j]? = some (place, code) ∧
        sel.position id = .ok place ∧ ∀ N, N.Sound → n'.Grows N → Simulates sel E sp N b code := by
  induction blocks generalizing n pieces with
  | nil =>
    obtain ⟨rfl, rfl⟩ := Select.pure_eq_ok.mp h
    exact ⟨hn, .refl n, rfl, by simp⟩
  | cons p blocks ih =>
    rw [List.mapM_cons] at h
    obtain ⟨⟨place, code⟩, n1, hblock, pieces', hblocks, rfl⟩ := Select.bind2_pure_eq_ok.mp h
    obtain ⟨hsound1, hgrows1, hplace, hcode⟩ :=
      simulates_selectBlock (E := E) hn (hcell p (.head _)) hblock
    obtain ⟨hsound2, hgrows2, hlen, hrest⟩ :=
      ih hsound1 (fun q hq => hcell q (.tail _ hq)) hblocks
    refine ⟨hsound2, hgrows1.trans hgrows2, by simp [hlen], ?_⟩
    intro j id b hj
    cases j with
    | zero =>
      obtain rfl : p = (id, b) := by simpa using hj
      exact ⟨place, code, rfl, hplace, fun N hN hN' => hcode N hN (hgrows2.trans hN')⟩
    | succ j => exact hrest j id b (by simpa using hj)

theorem piecesAt_cons (p : BlockId × List Instr) (pieces : List (BlockId × List Instr))
    (place : BlockId) :
    piecesAt (p :: pieces) place = (if p.1 = place then p.2 else []) ++ piecesAt pieces place := by
  by_cases h : p.1 = place <;> simp [piecesAt, h]

theorem piecesAt_eq (k : Nat) (h : ∀ (j : Nat) p, pieces[j]? = some p → p.1 = ⟨k + j⟩) (i : Nat) :
    piecesAt pieces ⟨i⟩ = if i < k then [] else (pieces[i - k]?.map Prod.snd).getD [] := by
  induction pieces generalizing k with
  | nil => simp [piecesAt]
  | cons p pieces ih =>
    have hp : p.1 = ⟨k⟩ := by simpa using h 0 p rfl
    have hrest := ih (k + 1) fun j q hq => by
      rw [h (j + 1) q (by simpa using hq), Nat.add_assoc, Nat.add_comm 1 j]
    rw [piecesAt_cons, hp, hrest]
    rcases Nat.lt_trichotomy i k with hlt | rfl | hgt
    · simp [hlt, Nat.lt_succ_of_lt hlt, Nat.ne_of_gt hlt]
    · simp
    · have hk : i - k = i - (k + 1) + 1 := by omega
      have hge : ¬ i < k + 1 := by omega
      simp [hk, hge, Nat.not_lt_of_lt hgt, Nat.ne_of_lt hgt]

/-! ## Entering a function -/

def passed (s : State (Store World)) (i : Nat) : Word :=
  match Physical.arguments[i]? with
  | some a => s.get (.physical a)
  | none => s.store.incoming (i - Physical.arguments.length)

theorem passed_set_virtual (s : State (Store World)) (v : VirtualId) (w : Word) (i : Nat) :
    passed (s.set (.virtual v) w) i = passed s i := by
  simp only [passed]
  split
  · exact State.get_set_of_ne _ _ (by simp)
  · rfl

theorem runs_selectParameter (sel : Selector) (E : Environment World) (hn : n.Sound)
    (h : Selector.selectParameter r i n = .ok (instr, n')) :
    n'.Sound ∧ n.Grows n' ∧ ∃ v, n'.values[r]? = some v ∧ ∀ s : State (Store World),
      Runs (sel.backing E) [instr] s (s.set (.virtual v) (passed s i)) := by
  simp only [Selector.selectParameter] at h
  obtain ⟨rd, n1, hrd, h⟩ := Select.bind_eq_ok.mp h
  obtain ⟨hsound, hgrows, v, rfl, hv⟩ := valueRegister_eq_ok hn hrd
  cases ha : Physical.arguments[i]? with
  | some a =>
    simp only [ha] at h
    obtain ⟨rfl, rfl⟩ := Select.pure_eq_ok.mp h
    refine ⟨hsound, hgrows, v, hv, fun s => ?_⟩
    simp only [passed, ha]
    exact Runs.write rfl
  | none =>
    simp only [ha] at h
    obtain ⟨rfl, rfl⟩ := Select.pure_eq_ok.mp h
    refine ⟨hsound, hgrows, v, hv, fun s => ?_⟩
    simp only [passed, ha]
    exact Runs.write rfl

theorem runs_parameters (sel : Selector) (E : Environment World) {parameters : List RegisterId}
    (hn : n.Sound) (hcell : ∀ r ∈ parameters, sel.slot? r = none)
    (h : (parameters.zipIdx k).mapM (fun p => Selector.selectParameter p.1 p.2) n = .ok
      (code, n')) :
    n'.Sound ∧ n.Grows n' ∧ ∀ N, N.Sound → n'.Grows N → ∀ fs s ws, Carries sel E N fs s →
      ws.length = parameters.length → (∀ (j : Nat) w, ws[j]? = some w → passed s (k + j) = w) →
      ∃ s', Runs (sel.backing E) code s s' ∧
        Carries sel E N (fs.assignAll (parameters.zip ws)) s' := by
  induction parameters generalizing n k code with
  | nil =>
    obtain ⟨rfl, rfl⟩ := Select.pure_eq_ok.mp h
    exact ⟨hn, .refl n, fun N _ _ fs s ws C _ _ => ⟨s, Runs.nil, C⟩⟩
  | cons r parameters ih =>
    rw [List.zipIdx_cons, List.mapM_cons] at h
    obtain ⟨instr, n1, hparam, code', hrest, rfl⟩ := Select.bind2_pure_eq_ok.mp h
    obtain ⟨hsound1, hgrows1, v, hv, hinstr⟩ := runs_selectParameter sel E hn hparam
    obtain ⟨hsound2, hgrows2, hcode⟩ := ih hsound1 (fun q hq => hcell q (.tail _ hq)) hrest
    refine ⟨hsound2, hgrows1.trans hgrows2, ?_⟩
    intro N hN hN' fs s ws C hlen hpassed
    cases ws with
    | nil => simp at hlen
    | cons w ws =>
      obtain rfl : passed s k = w := hpassed 0 w rfl
      have C1 := C.assign hN (hN'.values r v (hgrows2.values r v hv)) (hcell r (.head _))
        (passed s k)
      obtain ⟨s', hrun, C'⟩ := hcode N hN hN' _ _ ws C1 (by simpa using hlen) (by
        intro j w hj
        rw [passed_set_virtual]
        have := hpassed (j + 1) w (by simpa using hj)
        rwa [show k + 1 + j = k + (j + 1) by omega])
      refine ⟨s', ?_, C'⟩
      rw [← List.singleton_append]
      exact (hinstr s).append hrun

theorem registers_assignAll (fs : Flow.State World) (pairs : List (RegisterId × Word))
    (r : RegisterId) :
    (fs.assignAll pairs).registers r =
      ((pairs.reverse.find? fun p => p.1 == r).map Prod.snd).or (fs.registers r) := by
  induction pairs generalizing fs with
  | nil => rfl
  | cons p pairs ih =>
    show ((fs.assign p.1 p.2).assignAll pairs).registers r = _
    rw [ih, List.reverse_cons, List.find?_append]
    cases hfind : pairs.reverse.find? fun p => p.1 == r with
    | some q => simp
    | none =>
      by_cases hp : p.1 = r
      · simp [Flow.State.assign, hp]
      · simp [Flow.State.assign, hp, Ne.symm hp]

theorem seen_assignAll (h : Seen fs store) (pairs : List (RegisterId × Word)) :
    Seen (fs.assignAll pairs) store := by
  induction pairs generalizing fs with
  | nil => exact h
  | cons p pairs ih => exact ih ⟨h.memory, h.world, h.trace⟩

/-- Arguments and the rest of the machine when a function is called. -/
structure Enters (arguments : List Word) (s : State (Store World)) : Prop where
  passed : ∀ (i : Nat) w, arguments[i]? = some w → passed s i = w
  trace : s.store.trace = []
  outgoing : s.store.outgoing = fun _ => none

/-- The machine when a function is called with some arguments. -/
def State.entering (sp : Word) (arguments : List Word) (memory : Memory) (world : World) :
    State (Store World) where
  registers
    | .physical p => if p = .sp then sp else arguments.getD (Physical.arguments.idxOf p) 0
    | .virtual _ => 0
  store :=
    { memory, world, trace := []
      incoming := fun i => arguments.getD (Physical.arguments.length + i) 0
      outgoing := fun _ => none
      spilled := fun _ => 0 }

theorem enters_entering (sp : Word) (arguments : List Word) (memory : Memory) (world : World) :
    Enters arguments (State.entering sp arguments memory world) := by
  refine ⟨?_, rfl, rfl⟩
  intro i w hw
  simp only [MxStar.Machine.passed]
  split
  · rename_i a ha
    obtain ⟨hi, rfl⟩ := List.getElem?_eq_some_iff.mp ha
    have hmem : Physical.arguments[i] ∈ Physical.arguments := List.getElem_mem hi
    have hother : ∀ a ∈ Physical.arguments, a ≠ .zero ∧ a ≠ .sp := by decide
    have hindex : Physical.arguments.idxOf Physical.arguments[i] = i :=
      List.Nodup.idxOf_getElem (by decide) i hi
    simp [State.get, State.entering, hother _ hmem, hindex, hw]
  · rename_i ha
    have hi : Physical.arguments.length ≤ i := List.getElem?_eq_none_iff.mp ha
    simp [State.entering, Nat.add_sub_cancel' hi, hw]

theorem carries_cells (sel : Selector) (E : Environment World) (h : Enters arguments s)
    (N : Naming) :
    Carries sel E N (Flow.State.assignAll
      { registers := fun _ => none, memory := s.store.memory, world := s.store.world, trace := [] }
      (sel.source.cellValues (E.flow (s.get .sp)))) s := by
  have hregs : ∀ r, (Flow.State.assignAll
      { registers := fun _ => none, memory := s.store.memory, world := s.store.world, trace := [] }
      (sel.source.cellValues (E.flow (s.get .sp)))).registers r =
        (sel.slot? r).map fun slot => s.get .sp + E.slot slot := by
    intro r
    rw [registers_assignAll, Flow.Function.cellValues, ← List.map_reverse, List.find?_map]
    simp only [Selector.slot?, Option.or_none, Option.map_map]
    rfl
  refine ⟨?_, ?_, ?_, h.outgoing⟩
  · intro r w hr hslot
    rw [hregs, hslot] at hr
    simp at hr
  · intro r slot hslot
    rw [hregs, hslot]
    rfl
  · exact seen_assignAll ⟨rfl, rfl, by simp [h.trace]⟩ _

end

/-! ## Functions -/

theorem size_frameOf (cells : List Flow.Cell) : (frameOf cells).objects.size = cells.length := by
  have hfold : ∀ (cells : List Flow.Cell) (frame : Frame),
      (cells.foldl (fun frame c => (frame.allocate c.ty.size c.ty.alignment).2)
        frame).objects.size =
        frame.objects.size + cells.length := by
    intro cells
    induction cells with
    | nil => intro frame; rfl
    | cons c cells ih =>
      intro frame
      rw [List.foldl_cons, ih]
      simp only [Frame.allocate, Table.size, Table.push, Array.size_push, List.length_cons]
      omega
  exact (hfold cells {}).trans (Nat.zero_add _)

theorem ofFlow_eq_ok (h : Function.ofFlow program source options = .ok f) :
    let sel : Selector := { program, source, options }
    ∃ blocks parameters pieces n N, source.orderedBlocks = .ok blocks ∧
      sel.position source.entry = .ok f.entry ∧
      source.parameters.zipIdx.mapM (fun p => Selector.selectParameter p.1 p.2) {} =
        .ok (parameters, n) ∧
      blocks.mapM (fun p => sel.selectBlock p.1 p.2) n = .ok (pieces, N) ∧
      f.blocks.entries.toList = blocks.zipIdx.map (fun p => {
        id := ⟨p.2⟩, label := p.1.2.label
        code := piecesAt ((f.entry, parameters) :: pieces) ⟨p.2⟩ : Block }) ∧
      f.frame.objects.size = source.cells.size ∧ sel.position source.exit = .ok f.exit ∧
      f.virtuals = N.virtuals ∧ f.unspillable = ∅ ∧ f.frame.outgoing = N.outgoing ∧
      f.makesCalls = N.makesCalls := by
  intro sel
  obtain ⟨blocks, hblocks, h⟩ := Except.bind_eq_ok.mp h
  obtain ⟨entry, hentry, h⟩ := Except.bind_eq_ok.mp h
  obtain ⟨exit, hexit, h⟩ := Except.bind_eq_ok.mp h
  obtain ⟨⟨all, N⟩, hall, rfl⟩ := Except.bind_pure_eq_ok.mp h
  simp only [Selector.selectBlocks, StateT.run] at hall
  obtain ⟨parameters, n, hparams, pieces, N', hpieces, hall⟩ := Select.bind2_eq_ok.mp hall
  obtain ⟨rfl, rfl⟩ := Select.pure_eq_ok.mp hall
  refine ⟨blocks, parameters, pieces, n, N', hblocks, hentry, hparams, hpieces, ?_, ?_, hexit,
    rfl, rfl, rfl, rfl⟩
  · simp
  · simpa using size_frameOf source.cells.toList

/-- What selection relies on: blocks are listed once, control does not come back
to the entry, and the register of a stack cell is given no other value. -/
structure Selectable (f : Flow.Function) : Prop where
  layout : f.layout.Nodup
  entry : ∀ id ∈ f.layout, f.entry ∉ f.targets id
  parameters : ∀ r ∈ f.parameters, f.isCell r = false
  cells : ∀ id ∈ f.layout, ∀ b ∈ f.blocks.get? id, ∀ i ∈ b.instrs.toList, ∀ r ∈ i.assigned?,
    f.isCell r = false

instance (f : Flow.Function) : Decidable (Selectable f) :=
  decidable_of_iff (f.layout.Nodup ∧ (∀ id ∈ f.layout, f.entry ∉ f.targets id) ∧
      (∀ r ∈ f.parameters, f.isCell r = false) ∧
      ∀ id ∈ f.layout, ∀ b ∈ f.blocks.get? id, ∀ i ∈ b.instrs.toList, ∀ r ∈ i.assigned?,
        f.isCell r = false)
    ⟨fun ⟨h1, h2, h3, h4⟩ => ⟨h1, h2, h3, h4⟩, fun h => ⟨h.layout, h.entry, h.parameters, h.cells⟩⟩

theorem Selector.slot?_eq_none {sel : Selector} (h : sel.source.isCell r = false) :
    sel.slot? r = none := by
  simp only [slot?, Option.map_eq_none_iff, List.find?_eq_none, List.mem_reverse]
  intro p hp hr
  have hmem : p.1 ∈ sel.source.cells := by
    rw [← Array.mem_toList_iff]
    exact List.fst_mem_of_mem_zipIdx hp
  have hcell : sel.source.isCell r = true := Array.any_eq_true'.mpr ⟨p.1, hmem, hr⟩
  simp [hcell] at h

section

variable {World : Type} {sel : Selector} {E : Environment World} {sp : Word} {f : Function}
  {N : Naming}

/-- The function has the code of every block at the place of the block, and the
code that receives the parameters in front of that of the entry. -/
structure Selected (sel : Selector) (E : Environment World) (sp : Word) (f : Function) (N : Naming)
    (parameters : List Instr) : Prop where
  entry : sel.source.layout[f.entry.val]? = some sel.source.entry
  size : f.frame.objects.size = sel.source.cells.size
  block : ∀ (j : Nat) id b, sel.source.layout[j]? = some id → sel.source.blocks.get? id = some b →
    ∃ code label, f.blocks.get? ⟨j⟩ =
        some { id := ⟨j⟩, label, code := (if f.entry = ⟨j⟩ then parameters else []) ++ code } ∧
      Simulates sel E sp N b code
  parameters : ∀ fs s ws, Carries sel E N fs s → ws.length = sel.source.parameters.length →
    (∀ (j : Nat) w, ws[j]? = some w → passed s j = w) →
    ∃ s', Runs (sel.backing E) parameters s s' ∧
      Carries sel E N (fs.assignAll (sel.source.parameters.zip ws)) s'

variable {parameters : List Instr} {place : BlockId} {b : Flow.BlockId} {fs : Flow.State World}
  {s : State (Store World)}

theorem get?_of_pieces {blocks : List (Flow.BlockId × Flow.Block)}
    {pieces : List (BlockId × List Instr)} (hlayout : sel.source.layout.Nodup)
    (hordered : List.Forall₂ (fun id p => p.1 = id ∧ sel.source.blocks.get? id = some p.2)
      sel.source.layout blocks)
    (hpositions : List.Forall₂ (fun p piece => sel.position p.1 = .ok piece.1) blocks pieces)
    (hcode : f.blocks.entries.toList = blocks.zipIdx.map (fun p => {
      id := ⟨p.2⟩, label := p.1.2.label
      code := piecesAt ((f.entry, parameters) :: pieces) ⟨p.2⟩ : Block }))
    {j : Nat} {q : Flow.BlockId × Flow.Block} (hq : blocks[j]? = some q) {code : List Instr}
    (hpiece : pieces[j]? = some (place, code)) :
    f.blocks.get? ⟨j⟩ = some
      { id := ⟨j⟩, label := q.2.label
        code := (if f.entry = ⟨j⟩ then parameters else []) ++ code } := by
  have hplaces : ∀ (j : Nat) p, pieces[j]? = some p → p.1 = ⟨0 + j⟩ := by
    intro j p hp
    have hj : j < sel.source.layout.length := by
      rw [hordered.length_eq, hpositions.length_eq]
      exact (List.getElem?_eq_some_iff.mp hp).1
    obtain ⟨q, hq, hid, -⟩ := hordered.exists_of_getElem? (List.getElem?_eq_getElem hj)
    obtain ⟨piece, hpiece, hat⟩ := hpositions.exists_of_getElem? hq
    obtain rfl : p = piece := Option.mem_unique hp hpiece
    have hplace := getElem?_of_position hat
    rw [hid, ← List.getElem?_eq_getElem hj] at hplace
    obtain ⟨⟨i⟩, code⟩ := p
    rw [Nat.zero_add, (List.getElem?_inj hj hlayout).mp hplace.symm]
  have hpieces : piecesAt pieces ⟨j⟩ = code := by simp [piecesAt_eq 0 hplaces, hpiece]
  rw [Table.get?, ← Array.getElem?_toList, hcode]
  simp [hq, piecesAt_cons, hpieces]

theorem selected_ofFlow (hsource : Selectable source)
    (h : Function.ofFlow program source options = .ok f) (E : Environment World) (sp : Word) :
    ∃ N parameters, Selected { program, source, options } E sp f N parameters := by
  let sel : Selector := { program, source, options }
  obtain ⟨blocks, parameters, pieces, n, N, hblocks, hentry, hparams, hpieces, hcode, hsize, -⟩ :=
    ofFlow_eq_ok h
  have hordered := Flow.Function.forall₂_orderedBlocks hblocks
  have hcells : ∀ p ∈ blocks, ∀ i ∈ p.2.instrs.toList, ∀ r, i.assigned? = some r →
      sel.slot? r = none := by
    intro p hp i hi r hr
    obtain ⟨id, hid, -, hb⟩ := hordered.exists_of_mem_right hp
    exact Selector.slot?_eq_none (hsource.cells id hid p.2 hb i hi r hr)
  obtain ⟨hn, -, hreceive⟩ := runs_parameters sel E Naming.sound_empty
    (fun r hr => Selector.slot?_eq_none (hsource.parameters r hr)) hparams
  obtain ⟨hN, hgrows, hlen, hsimulates⟩ := simulates_blocks E sp hn hcells hpieces
  have hpositions : List.Forall₂ (fun p piece => sel.position p.1 = .ok piece.1) blocks pieces := by
    refine List.forall₂_iff_get.mpr ⟨hlen.symm, fun j hj hj' => ?_⟩
    obtain ⟨place, code, hpiece, hat, -⟩ := hsimulates j _ _ (List.getElem?_eq_getElem hj)
    have hplace : pieces[j].1 = place :=
      congrArg Prod.fst (Option.some.inj ((List.getElem?_eq_getElem hj').symm.trans hpiece))
    simpa [hplace] using hat
  refine ⟨N, parameters, getElem?_of_position hentry, hsize, ?_, ?_⟩
  · intro j id b hid hb
    obtain ⟨q, hq, rfl, hb'⟩ := hordered.exists_of_getElem? hid
    obtain rfl : q.2 = b := Option.mem_unique hb' hb
    obtain ⟨place, code, hpiece, -, hcode'⟩ := hsimulates j q.1 q.2 hq
    exact ⟨code, q.2.label, get?_of_pieces hsource.layout hordered hpositions hcode hq hpiece,
      hcode' N hN (.refl N)⟩
  · intro fs s ws C hws hpassed
    exact hreceive N hN hgrows fs s ws C hws (by simpa using hpassed)

theorem lockstep_succ {source : Flow.Function} {R : Flow.State World → State (Store World) → Prop}
    (hstuck : source.runFrom G p (count + 1) b fs ≠ .stuck)
    (hblock : source.runBlock G p b fs ≠ .stuck → Lockstep layout R (source.runBlock G p b fs)
      (f.runBlock B place s))
    (hrest : ∀ next fs' place' s', source.runBlock G p b fs = .at next fs' →
      layout[place'.val]? = some next → R fs' s' → source.runFrom G p count next fs' ≠ .stuck →
      Lockstep layout R (source.runFrom G p count next fs') (f.runFrom B count place' s')) :
    Lockstep layout R (source.runFrom G p (count + 1) b fs) (f.runFrom B (count + 1) place s) := by
  simp only [Flow.Function.runFrom, Function.runFrom] at hstuck ⊢
  cases ha : source.runBlock G p b fs with
  | stuck => simp [ha] at hstuck
  | «at» next fs' =>
    rw [ha] at hstuck hblock hrest
    have hstep := hblock (by simp)
    cases hc : f.runBlock B place s with
    | «at» place' s' =>
      rw [hc] at hstep
      exact hrest next fs' place' s' rfl hstep.1 hstep.2 hstuck
    | _ => exact (hc ▸ hstep).elim
  | returned value fs' =>
    rw [ha] at hblock
    have hstep := hblock (by simp)
    cases hc : f.runBlock B place s with
    | returned value' s' =>
      rw [hc] at hstep
      exact hstep
    | _ => exact (hc ▸ hstep).elim
  | hung fs' =>
    rw [ha] at hblock
    have hstep := hblock (by simp)
    cases hc : f.runBlock B place s with
    | halted reason s' =>
      rw [hc] at hstep
      exact hstep
    | _ => exact (hc ▸ hstep).elim

theorem Selected.lockstep_runBlock (S : Selected sel E sp f N parameters)
    (hplace : sel.source.layout[place.val]? = some b)
    (hruns : Runs (sel.backing E) (if f.entry = place then parameters else []) s s')
    (C : Carries sel E N fs s')
    (hstuck : sel.source.runBlock (E.flow sp) sel.program b fs ≠ .stuck) :
    Lockstep sel.source.layout (Carries sel E N)
      (sel.source.runBlock (E.flow sp) sel.program b fs) (f.runBlock (sel.backing E) place s) := by
  simp only [Flow.Function.runBlock] at hstuck ⊢
  cases hb : sel.source.blocks.get? b with
  | none => simp [hb] at hstuck
  | some block =>
    obtain ⟨code, label, hcode, hsimulates⟩ := S.block place.val b block hplace hb
    simp only [hb] at hstuck ⊢
    simp only [Function.runBlock, hcode]
    rw [hruns]
    exact hsimulates fs s' C hstuck

/-- **One block after another.**  Away from the entry the two runs stay together. -/
theorem lockstep_runFrom (hsource : Selectable sel.source) (S : Selected sel E sp f N parameters)
    (count : Nat) (hplace : sel.source.layout[place.val]? = some b) (hentry : b ≠ sel.source.entry)
    (C : Carries sel E N fs s)
    (hstuck : sel.source.runFrom (E.flow sp) sel.program count b fs ≠ .stuck) :
    Lockstep sel.source.layout (Carries sel E N)
      (sel.source.runFrom (E.flow sp) sel.program count b fs)
      (f.runFrom (sel.backing E) count place s) := by
  induction count generalizing b place fs s with
  | zero => exact ⟨hplace, C⟩
  | succ count ih =>
    have hne : f.entry ≠ place := by
      rintro rfl
      exact hentry (Option.mem_unique hplace S.entry)
    refine lockstep_succ hstuck (S.lockstep_runBlock hplace ?_ C) ?_
    · rw [if_neg hne]
      exact Runs.nil
    · intro next fs' place' s' hnext hplace' C' hstuck'
      refine ih hplace' ?_ C' hstuck'
      rintro rfl
      exact hsource.entry b (List.mem_of_getElem? hplace)
        (Flow.Function.mem_targets_of_runBlock hnext)

theorem lockstep_run (hsource : Selectable sel.source)
    (S : Selected sel E (s.get .sp) f N parameters)
    (hlen : arguments.length = sel.source.parameters.length) (henters : Enters arguments s)
    (count : Nat)
    (hstuck : sel.source.run (E.flow (s.get .sp)) sel.program arguments s.store.memory s.store.world
      count ≠ .stuck) :
    Lockstep sel.source.layout (fun fs s => Seen fs s.store)
      (sel.source.run (E.flow (s.get .sp)) sel.program arguments s.store.memory s.store.world count)
      (f.run (sel.backing E) count s) := by
  have C := carries_cells sel E henters N
  cases count with
  | zero => exact ⟨S.entry, seen_assignAll C.seen _⟩
  | succ count =>
    obtain ⟨s', hruns, C'⟩ := S.parameters _ s arguments C hlen henters.passed
    refine Lockstep.mono (fun _ _ C => C.seen) (R := Carries sel E N) ?_
    refine lockstep_succ hstuck (S.lockstep_runBlock S.entry ?_ C') ?_
    · rw [if_pos rfl]
      exact hruns
    · intro next fs' place' s' hnext hplace' C' hstuck'
      refine lockstep_runFrom hsource S count hplace' ?_ C' hstuck'
      rintro rfl
      exact hsource.entry _ (List.mem_of_getElem? S.entry)
        (Flow.Function.mem_targets_of_runBlock hnext)

end

/-- **Selection keeps what a function does.**  The code that a unit has for one
of its functions goes through the same blocks as the function, with the same
accesses to memory and the same calls in the same order, and returns the same
value.  A run of the graph that is stuck has no meaning to be kept. -/
theorem Module.lockstep_run_ofFlow {program : Flow.Program} {options : Options} {m : Module}
    {log log' : Log} (hm : Module.ofFlow program options log = .ok m log') {i : Nat}
    {source : Flow.Function} (hi : program.allFunctions[i]? = some source)
    (hsource : Selectable source) :
    ∃ f, m.functions[i]? = some f ∧ ∀ (World : Type) (E : Environment World) (arguments : List Word)
      (s : State (Store World)) (count : Nat),
      arguments.length = source.parameters.length → Enters arguments s →
      source.run (E.flow (s.get .sp)) program arguments s.store.memory s.store.world count ≠
        .stuck →
      Lockstep source.layout (fun fs s => Seen fs s.store)
        (source.run (E.flow (s.get .sp)) program arguments s.store.memory s.store.world count)
        (f.run (E.backing f.frame.objects.size f.frame.objects.size) count s) := by
  obtain ⟨globals, log₁, -, functions, log₂, hfunctions, hm⟩ := EStateM.bind2_eq_ok.mp hm
  obtain ⟨rfl, -⟩ := EStateM.pure_eq_ok.mp hm
  obtain ⟨f, hf, logf, logf', hselect⟩ :=
    (EStateM.forall₂_of_mapM_eq_ok hfunctions).exists_of_getElem? hi
  obtain ⟨f', hflow, hselect⟩ := EStateM.ofExcept_bind_eq_ok.mp hselect
  rw [Logged.note_bind] at hselect
  obtain ⟨rfl, -⟩ := EStateM.pure_eq_ok.mp hselect
  refine ⟨f', hf, ?_⟩
  intro World E arguments s count hlength henters hstuck
  obtain ⟨N, parameters, S⟩ := selected_ofFlow hsource hflow E (s.get .sp)
  rw [S.size]
  exact lockstep_run hsource S hlength henters count hstuck

/-- A function of nine parameters that keeps the last one in a cell, compares it
and may pass all nine on. -/
def relay : Flow.Function :=
  let r (n : Nat) : Operand := .register ⟨n⟩
  let seven : Operand := .constant (.int 7)
  { name := "relay"
    returnType := .int
    parameters := (List.range 9).map fun n => ⟨n⟩
    registers := ⟨(Array.replicate 9 { ty := .int }) ++ #[{ ty := .pointer .int 1 }, { ty := .int },
      { ty := .int }, { ty := .cond }, { ty := .int }]⟩
    cells := #[{ register := ⟨9⟩, ty := .int }]
    blocks := ⟨#[
      { label := "entry"
        instrs := #[.store (r 8) (r 9), .load ⟨10⟩ (r 9), .arith .sub ⟨11⟩ (r 10) seven,
          .compare .sle ⟨12⟩ (r 11) (r 0)]
        terminator := some (.branch (r 12) ⟨1⟩ ⟨2⟩) },
      { label := "more"
        instrs := #[.call (some ⟨13⟩) "relay" ((List.range 9).map r), .store (r 13) (r 9)]
        terminator := some (.jump ⟨2⟩) },
      { label := "last"
        instrs := #[.load ⟨10⟩ (r 9)]
        terminator := some (.ret (some (r 10))) }]⟩
    layout := [⟨0⟩, ⟨2⟩, ⟨1⟩] }

/-- Called functions answer with their ninth argument and one more. -/
def nextAnswer : Environment Unit where
  symbol _ := 0
  slot _ := 0
  call _ c memory := some ((), memory, fun _ => (c.stack 0).getD 0 + 1)

theorem exists_of_returnsAfterFive {o : Flow.Outcome Unit} (h : (match o with
      | .returned (some w) fs => w == 9 && fs.trace.length == 5
      | _ => false) = true) : ∃ fs, o = .returned (some 9) fs ∧ fs.trace.length = 5 := by
  split at h
  · simpa using h
  · simp at h

/-- All nine arguments are passed on, the last one on the stack. -/
theorem Module.lockstep_run_ofFlow_relay :
    Selectable relay ∧ ∃ m log f,
      Module.ofFlow { functions := [relay] } {} #[] = .ok m log ∧ m.functions[0]? = some f ∧
      let arguments : List Word := [9, 0, 1, 2, 3, 4, 5, 6, 8]
      let s := State.entering 4096 arguments (fun _ => 0) ()
      let outcome := relay.run (nextAnswer.flow 4096) { functions := [relay] } arguments
        (fun _ => 0) () 3
      (∃ fs, outcome = .returned (some 9) fs ∧ fs.trace.length = 5) ∧
        Lockstep relay.layout (fun fs s => Seen fs s.store) outcome
          (f.run (nextAnswer.backing f.frame.objects.size f.frame.objects.size) 3 s) := by
  have hsource : Selectable relay := by decide +kernel
  refine ⟨hsource, ?_⟩
  have hok : (Module.ofFlow { functions := [relay] } {} #[]).passes (fun _ => true) = true := by
    decide +kernel
  obtain ⟨m, log, hm, -⟩ := EStateM.exists_of_passes hok
  obtain ⟨f, hf, hrun⟩ := Module.lockstep_run_ofFlow hm (i := 0) rfl hsource
  refine ⟨m, log, f, hm, hf, ?_⟩
  intro arguments s outcome
  have hreturned := exists_of_returnsAfterFive (o := outcome) (by decide +kernel)
  refine ⟨hreturned, hrun Unit nextAnswer arguments s 3 rfl (enters_entering _ _ _ _) ?_⟩
  obtain ⟨fs, heq, -⟩ := hreturned
  intro hstuck
  have hne : Flow.Outcome.returned (some 9) fs = .stuck := heq.symm.trans hstuck
  simp at hne

end MxStar.Machine
