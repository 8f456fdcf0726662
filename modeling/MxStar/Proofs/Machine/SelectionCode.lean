import MxStar.Proofs.Flow.Run
import MxStar.Proofs.Machine.Naming
import MxStar.Proofs.Machine.SymbolicFrame

/-!
# What selected code does

The machine runs the code selected for an instruction of a graph and does what
the instruction does.  The relation between the two states is `Carries`: every
register of the graph that has a value has it in the virtual register of its
name, a stack cell is the object of the frame it is mapped to, and memory and
the record of what was done are the same.

Code that only prepares operands writes nothing but new temporaries (`Keeps`),
so it disturbs neither the values of the graph nor operands prepared before.
-/

namespace MxStar.Machine

open MxStar.Flow (Operand RegisterId)

/-- A call with all its arguments: the first in registers, the others on the stack. -/
def Call.pass (symbol : String) (arguments : List Word) : Call where
  symbol
  arguments := arguments.take Physical.arguments.length
  stack n := arguments[Physical.arguments.length + n]?

/-- What a graph does, as the machine does it. -/
def observed : Flow.Action → Observed
  | .load width address => .load width address
  | .store width address value => .store width address value
  | .call function arguments => .call (.pass function arguments)

section

variable {World : Type}

/-- The surroundings as a graph sees them when the stack pointer is `sp`. -/
def Environment.flow (E : Environment World) (sp : Word) : Flow.Environment World where
  global := E.symbol
  string id := E.symbol (stringLabel id)
  cell n := sp + E.slot ⟨n⟩
  call world function arguments memory :=
    (E.call world (.pass function arguments) memory).map fun (world, memory, after) =>
      (world, memory, after Physical.result)

structure Seen (fs : Flow.State World) (store : Store World) : Prop where
  memory : store.memory = fs.memory
  world : store.world = fs.world
  trace : store.trace = fs.trace.map observed

/-! ## Temporaries -/

/-- The register is none of the temporaries numbered from `lower` on. -/
def Settled (N : Naming) (lower : Nat) (r : Register) : Prop :=
  ∀ v, r = .virtual v → lower ≤ v.val → ¬ N.IsTemporary v

/-- Only temporaries numbered from `lower` on differ. -/
structure Keeps (N : Naming) (lower : Nat) (s s' : State (Store World)) : Prop where
  store : s'.store = s.store
  get : ∀ r, Settled N lower r → s'.get r = s.get r

variable {v : VirtualId} {q : RegisterId}

section

variable {N : Naming} {lower : Nat} {r : Register} {s : State (Store World)}

theorem settled_physical (p : Physical) : Settled N lower (.physical p) := by
  intro v hv
  simp at hv

theorem settled_value (h : N.values[q]? = some v) : Settled N lower (.virtual v) := by
  intro w hw _ htemp
  obtain rfl := Register.virtual.inj hw
  exact htemp q h

theorem settled_of_lt (h : v.val < lower) : Settled N lower (.virtual v) := by
  intro w hw hle
  obtain rfl := Register.virtual.inj hw
  omega

theorem Settled.mono (h : Settled N lower r) (hle : lower ≤ lower') : Settled N lower' r :=
  fun v hv hlower => h v hv (hle.trans hlower)

theorem Keeps.refl (s : State (Store World)) : Keeps N lower s s := ⟨rfl, fun _ _ => rfl⟩

theorem Keeps.mono (h : Keeps N lower' s s') (hle : lower ≤ lower') : Keeps N lower s s' :=
  ⟨h.store, fun r hr => h.get r (hr.mono hle)⟩

theorem Keeps.trans (h : Keeps N lower s s') (h' : Keeps N lower s' s'') : Keeps N lower s s'' :=
  ⟨h'.store.trans h.store, fun r hr => (h'.get r hr).trans (h.get r hr)⟩

theorem keeps_set (htemp : N.IsTemporary v) (hlower : lower ≤ v.val) (w : Word) :
    Keeps N lower s (s.set (.virtual v) w) := by
  refine ⟨rfl, fun r hr => State.get_set_of_ne _ _ ?_⟩
  rintro rfl
  exact hr v rfl hlower htemp

end

/-! ## States that carry a state of the graph -/

/-- The second state has the values of the first, a state of the graph. -/
structure Carries (sel : Selector) (E : Environment World) (N : Naming) (fs : Flow.State World)
    (s : State (Store World)) : Prop where
  value : ∀ r w, fs.registers r = some w → sel.slot? r = none →
    ∃ v, N.values[r]? = some v ∧ s.get (.virtual v) = w
  cell : ∀ r slot, sel.slot? r = some slot → fs.registers r = some (s.get .sp + E.slot slot)
  seen : Seen fs s.store
  /-- No stack word of a call is stored yet -/
  outgoing : s.store.outgoing = fun _ => none

namespace Selector

variable {sel : Selector}

theorem exists_cell_of_slot? (h : sel.slot? r = some slot) :
    ∃ c, sel.source.cells[slot.val]? = some c ∧ c.register = r := by
  obtain ⟨⟨c, i⟩, hfind, rfl⟩ := Option.map_eq_some_iff.mp h
  have hmem := List.mem_of_find?_eq_some hfind
  rw [List.mem_reverse, List.mem_zipIdx_iff_getElem?] at hmem
  exact ⟨c, by simpa using hmem, by simpa using List.find?_some hfind⟩

theorem lt_of_slot? (h : sel.slot? r = some slot) : slot.val < sel.source.cells.size := by
  obtain ⟨c, hc, -⟩ := exists_cell_of_slot? h
  exact (Array.getElem?_eq_some_iff.mp hc).1

/-- The surroundings of the code of a function. -/
abbrev backing (sel : Selector) (E : Environment World) : Backing (Store World) :=
  E.backing sel.source.cells.size sel.source.cells.size

end Selector

namespace Carries

variable {sel : Selector} {E : Environment World} {N : Naming} {fs : Flow.State World}
  {s : State (Store World)}

variable (C : Carries sel E N fs s)
include C

theorem keeps (h : Keeps N lower s s') : Carries sel E N fs s' where
  value := by
    intro r w hr hslot
    obtain ⟨v, hv, hw⟩ := C.value r w hr hslot
    exact ⟨v, hv, (h.get _ (settled_value hv)).trans hw⟩
  cell := by
    intro r slot hslot
    rw [h.get _ (settled_physical .sp)]
    exact C.cell r slot hslot
  seen := h.store ▸ C.seen
  outgoing := h.store ▸ C.outgoing

/-- Memory and the record change alike, and so may registers that hold no value
of the graph. -/
theorem transfer (hregs : fs'.registers = fs.registers)
    (hvirtual : ∀ v, s'.get (.virtual v) = s.get (.virtual v)) (hsp : s'.get .sp = s.get .sp)
    (hseen : Seen fs' s'.store) (houtgoing : s'.store.outgoing = fun _ => none) :
    Carries sel E N fs' s' where
  value := by
    intro r w hr hslot
    rw [hregs] at hr
    obtain ⟨v, hv, hw⟩ := C.value r w hr hslot
    exact ⟨v, hv, (hvirtual v).trans hw⟩
  cell := by
    intro r slot hslot
    rw [hregs, hsp]
    exact C.cell r slot hslot
  seen := hseen
  outgoing := houtgoing

theorem assign (hN : N.Sound) (hv : N.values[d]? = some v) (hcell : sel.slot? d = none) (w : Word) :
    Carries sel E N (fs.assign d w) (s.set (.virtual v) w) where
  value := by
    intro r w' hr hslot
    by_cases hrd : r = d
    · subst hrd
      obtain rfl : w = w' := by simpa [Flow.State.assign] using hr
      exact ⟨v, hv, State.get_set_self _ _ (by simp)⟩
    · obtain ⟨v', hv', hw'⟩ := C.value r w' (by simpa [Flow.State.assign, hrd] using hr) hslot
      refine ⟨v', hv', (State.get_set_of_ne _ _ ?_).trans hw'⟩
      intro heq
      obtain rfl := Register.virtual.inj heq
      exact hrd (hN.injective r d v' hv' hv)
  cell := by
    intro r slot hslot
    have hrd : r ≠ d := by
      rintro rfl
      simp [hcell] at hslot
    rw [State.get_set_of_ne _ _ (by simp)]
    simpa [Flow.State.assign, hrd] using C.cell r slot hslot
  seen := ⟨C.seen.memory, C.seen.world, C.seen.trace⟩
  outgoing := C.outgoing

end Carries

/-! ## Operands -/

section

variable {sel : Selector} {E : Environment World} {sp : Word} {n n' : Naming}

/-- The code puts the value of an operand into a register, with the help of new
temporaries only. -/
structure Prepares (sel : Selector) (E : Environment World) (sp : Word) (n n' : Naming)
    (o : Operand) (r : Register) (code : List Instr) : Prop where
  sound : n'.Sound
  grows : n.Grows n'
  /-- The register is virtual or the one that holds zero -/
  source : ∀ p, r = .physical p → p = .zero
  settled : ∀ N, n'.Grows N → Settled N n'.virtuals r
  delivers : ∀ N, n'.Grows N → ∀ fs s w, Carries sel E N fs s →
    fs.value? (E.flow sp) o = some w →
    ∃ s', Runs (sel.backing E) code s s' ∧ Keeps N n.virtuals s s' ∧ s'.get r = w

variable {o : Operand} {r : Register} {code : List Instr}

theorem prepares_temporary (hn : n.Sound)
    (h : ∀ N fs s w, Carries sel E N fs s → fs.value? (E.flow sp) o = some w →
      i.effect (sel.backing E) s.store s.get = .write (.virtual ⟨n.virtuals⟩) w s.store) :
    Prepares sel E sp n { n with virtuals := n.virtuals + 1 } o (.virtual ⟨n.virtuals⟩) [i] where
  sound := hn.fresh
  grows := n.grows_fresh
  source := by simp
  settled := fun N _ => settled_of_lt (Nat.lt_succ_self _)
  delivers := by
    intro N hN fs s w C hw
    exact ⟨_, Runs.write (h N fs s w C hw), keeps_set (hn.isTemporary_fresh hN) le_rfl w,
      State.get_set_self _ _ (by simp)⟩

theorem prepares_value (hn : n.Sound) (hslot : sel.slot? q = none)
    (h : valueRegister q n = .ok (r, n')) : Prepares sel E sp n n' (.register q) r [] := by
  obtain ⟨hn', hgrows, v, rfl, hv⟩ := valueRegister_eq_ok hn h
  refine ⟨hn', hgrows, by simp, fun N hN => settled_value (hN.values q v hv), ?_⟩
  intro N hN fs s w C hw
  obtain ⟨v', hv', hget⟩ := C.value q w hw hslot
  obtain rfl : v = v' := Option.some.inj ((hN.values q v hv).symm.trans hv')
  exact ⟨s, Runs.nil, Keeps.refl s, hget⟩

theorem prepares_operand (hn : n.Sound) (h : sel.operand o n = .ok ((r, code), n')) :
    Prepares sel E sp n n' o r code := by
  cases o with
  | register q =>
    simp only [Selector.operand] at h
    cases hslot : sel.slot? q with
    | some slot =>
      simp only [hslot] at h
      rw [fresh_bind] at h
      obtain ⟨⟨rfl, rfl⟩, rfl⟩ := Select.pure_pair_eq_ok.mp h
      refine prepares_temporary hn fun N fs s w C hw => ?_
      have hw' : some w = some (s.get .sp + E.slot slot) := hw.symm.trans (C.cell q slot hslot)
      rw [Option.some.inj hw']
      simp [Instr.effect, Environment.backing, Selector.lt_of_slot? hslot]
    | none =>
      simp only [hslot] at h
      obtain ⟨rd, hvalue, ⟨⟩⟩ := Select.bind_pure_eq_ok.mp h
      exact prepares_value hn hslot hvalue
  | constant c =>
    simp only [Selector.operand] at h
    split at h
    · rename_i hzero
      obtain ⟨⟨rfl, rfl⟩, rfl⟩ := Select.pure_pair_eq_ok.mp h
      refine ⟨hn, .refl n, by simp, fun N _ => settled_physical .zero, ?_⟩
      intro N hN fs s w C hw
      obtain rfl : c.bits = w := Option.some.inj hw
      exact ⟨s, Runs.nil, Keeps.refl s, (State.get_zero s).trans hzero.symm⟩
    · rw [fresh_bind] at h
      obtain ⟨⟨rfl, rfl⟩, rfl⟩ := Select.pure_pair_eq_ok.mp h
      refine prepares_temporary hn fun N fs s w C hw => ?_
      obtain rfl : c.bits = w := Option.some.inj hw
      rfl
  | global name =>
    simp only [Selector.operand, fresh_bind] at h
    obtain ⟨⟨rfl, rfl⟩, rfl⟩ := Select.pure_pair_eq_ok.mp h
    refine prepares_temporary hn fun N fs s w C hw => ?_
    obtain rfl : E.symbol name = w := Option.some.inj hw
    rfl
  | string id =>
    simp only [Selector.operand, fresh_bind] at h
    obtain ⟨⟨rfl, rfl⟩, rfl⟩ := Select.pure_pair_eq_ok.mp h
    refine prepares_temporary hn fun N fs s w C hw => ?_
    obtain rfl : E.symbol (stringLabel id) = w := Option.some.inj hw
    rfl

variable {fs : Flow.State World} {base : Register}

theorem Prepares.two (P1 : Prepares sel E sp n n1 o1 r1 code1)
    (P2 : Prepares sel E sp n1 n2 o2 r2 code2) (hN : n2.Grows N) (C : Carries sel E N fs s)
    (h1 : fs.value? (E.flow sp) o1 = some w1) (h2 : fs.value? (E.flow sp) o2 = some w2) :
    ∃ s', Runs (sel.backing E) (code1 ++ code2) s s' ∧ Keeps N n.virtuals s s' ∧
      s'.get r1 = w1 ∧ s'.get r2 = w2 := by
  obtain ⟨s1, hrun1, hkeeps1, hget1⟩ := P1.delivers N (P2.grows.trans hN) fs s w1 C h1
  obtain ⟨s2, hrun2, hkeeps2, hget2⟩ := P2.delivers N hN fs s1 w2 (C.keeps hkeeps1) h2
  refine ⟨s2, hrun1.append hrun2, hkeeps1.trans (hkeeps2.mono P1.grows.virtuals), ?_, hget2⟩
  rw [hkeeps2.get _ (P1.settled N (P2.grows.trans hN)), hget1]

structure PreparesAll (sel : Selector) (E : Environment World) (sp : Word) (n n' : Naming)
    (os : List Operand) (rs : List Register) (code : List Instr) : Prop where
  sound : n'.Sound
  grows : n.Grows n'
  source : ∀ r ∈ rs, ∀ p, r = .physical p → p = .zero
  delivers : ∀ N, n'.Grows N → ∀ fs s ws, Carries sel E N fs s →
    os.mapM (fs.value? (E.flow sp)) = some ws →
    ∃ s', Runs (sel.backing E) code s s' ∧ Keeps N n.virtuals s s' ∧ rs.map s'.get = ws

theorem preparesAll_operands (hn : n.Sound) (h : sel.operands os n = .ok ((rs, code), n')) :
    PreparesAll sel E sp n n' os rs code := by
  induction os generalizing n rs code with
  | nil =>
    obtain ⟨⟨rfl, rfl⟩, rfl⟩ := Select.pure_pair_eq_ok.mp h
    refine ⟨hn, .refl n, by simp, fun N _ fs s ws _ hws => ?_⟩
    exact ⟨s, Runs.nil, Keeps.refl s, by simpa using hws⟩
  | cons o os ih =>
    simp only [Selector.operands] at h
    obtain ⟨⟨r, code1⟩, n1, ho, ⟨rs', code2⟩, hos, ⟨⟩⟩ := Select.bind2_pure_eq_ok.mp h
    have P : Prepares sel E sp n n1 o r code1 := prepares_operand hn ho
    have Q : PreparesAll sel E sp n1 n' os rs' code2 := ih P.sound hos
    refine ⟨Q.sound, P.grows.trans Q.grows, ?_, ?_⟩
    · intro q hq
      rcases List.mem_cons.mp hq with rfl | hq'
      · exact P.source
      · exact Q.source q hq'
    · intro N hN fs s ws C hws
      simp only [List.mapM_cons, bind, Option.bind_eq_some_iff, pure, Option.some.injEq] at hws
      obtain ⟨w, hw, ws', hws', rfl⟩ := hws
      have hN1 := Q.grows.trans hN
      obtain ⟨s1, hrun1, hkeeps1, hget1⟩ := P.delivers N hN1 fs s w C hw
      obtain ⟨s2, hrun2, hkeeps2, hget2⟩ := Q.delivers N hN fs s1 ws' (C.keeps hkeeps1) hws'
      refine ⟨s2, hrun1.append hrun2, hkeeps1.trans (hkeeps2.mono P.grows.virtuals), ?_⟩
      rw [List.map_cons, hget2, hkeeps2.get r (P.settled N hN1), hget1]

/-- Base and offset stand for an address of memory. -/
structure PointsTo (sel : Selector) (E : Environment World) (s : State (Store World))
    (base : Register) (offset : Offset) (a : Word) : Prop where
  load : ∀ store width,
    (sel.backing E).load store width (s.get base) offset = .ok (store.load width a)
  store : ∀ store width value,
    (sel.backing E).store store width (s.get base) offset value = .ok (store.save width a value)

theorem pointsTo_immediate : PointsTo sel E s base (.immediate 0) (s.get base) := by
  constructor <;> intros <;> simp [Environment.backing]

/-- The code finds base and offset of the memory an operand points to. -/
structure Locates (sel : Selector) (E : Environment World) (sp : Word) (n n' : Naming)
    (o : Operand) (base : Register) (offset : Offset) (code : List Instr) : Prop where
  sound : n'.Sound
  grows : n.Grows n'
  settled : ∀ N, n'.Grows N → Settled N n'.virtuals base
  delivers : ∀ N, n'.Grows N → ∀ fs s a, Carries sel E N fs s →
    fs.value? (E.flow sp) o = some a →
    ∃ s', Runs (sel.backing E) code s s' ∧ Keeps N n.virtuals s s' ∧ PointsTo sel E s' base offset a

theorem Prepares.locates (P : Prepares sel E sp n n' o r code) :
    Locates sel E sp n n' o r (.immediate 0) code where
  sound := P.sound
  grows := P.grows
  settled := P.settled
  delivers := by
    intro N hN fs s a C ha
    obtain ⟨s', hrun, hkeeps, rfl⟩ := P.delivers N hN fs s a C ha
    exact ⟨s', hrun, hkeeps, pointsTo_immediate⟩

/-- **Addresses are found** without building that of a cell. -/
theorem locates_address (hn : n.Sound) (h : sel.address o n = .ok ((base, offset, code), n')) :
    Locates sel E sp n n' o base offset code := by
  have hother : ∀ {o : Operand}, (do
      let p ← sel.operand o
      return (p.1, .immediate 0, p.2) : Select (Register × Offset × List Instr)) n =
      .ok ((base, offset, code), n') → Locates sel E sp n n' o base offset code := by
    intro o h
    obtain ⟨⟨r, code'⟩, between, ho, h⟩ := Select.bind_eq_ok.mp h
    obtain ⟨heq, rfl⟩ := Select.pure_eq_ok.mp h
    simp only [Prod.mk.injEq] at heq
    obtain ⟨rfl, rfl, rfl⟩ := heq
    exact (prepares_operand hn ho).locates
  cases o with
  | register q =>
    simp only [Selector.address] at h
    cases hslot : sel.slot? q with
    | some slot =>
      simp only [hslot] at h
      obtain ⟨heq, rfl⟩ := Select.pure_eq_ok.mp h
      simp only [Prod.mk.injEq] at heq
      obtain ⟨rfl, rfl, rfl⟩ := heq
      refine ⟨hn, .refl n, fun N _ => settled_physical .sp, ?_⟩
      intro N hN fs s a C ha
      obtain rfl : s.get .sp + E.slot slot = a :=
        Option.some.inj ((C.cell q slot hslot).symm.trans ha)
      refine ⟨s, Runs.nil, Keeps.refl s, ?_⟩
      constructor <;> intros <;> simp [Environment.backing, Selector.lt_of_slot? hslot]
    | none =>
      simp only [hslot] at h
      obtain ⟨r, between, hr, h⟩ := Select.bind_eq_ok.mp h
      obtain ⟨heq, rfl⟩ := Select.pure_eq_ok.mp h
      simp only [Prod.mk.injEq] at heq
      obtain ⟨rfl, rfl, rfl⟩ := heq
      exact (prepares_value hn hslot hr).locates
  | constant c => exact hother h
  | global name => exact hother h
  | string id => exact hother h

/-! ## Results -/

/-- The code computes a value, with the help of new temporaries, and writes it
into a register last of all. -/
def Computes (B : Backing (Store World)) (N : Naming) (lower : Nat) (s : State (Store World))
    (code : List Instr) (rd : Register) (w : Word) : Prop :=
  ∃ before i s', code = before ++ [i] ∧ Runs B before s s' ∧ Keeps N lower s s' ∧
    i.effect B s'.store s'.get = .write rd w s'.store

section

variable {B : Backing (Store World)} {N : Naming} {lower : Nat} {s : State (Store World)} {w : Word}
  {i : Instr}

theorem computes_single (h : i.effect B s.store s.get = .write rd w s.store) :
    Computes B N lower s [i] rd w :=
  ⟨[], i, s, rfl, Runs.nil, Keeps.refl s, h⟩

theorem Computes.prepend (h : Computes B N lower' s' code rd w) (hrun : Runs B code' s s')
    (hkeeps : Keeps N lower s s') (hle : lower ≤ lower') :
    Computes B N lower s (code' ++ code) rd w := by
  obtain ⟨before, i, t, rfl, hrun', hkeeps', heffect⟩ := h
  exact ⟨code' ++ before, i, t, (List.append_assoc _ _ _).symm, hrun.append hrun',
    hkeeps.trans (hkeeps'.mono hle), heffect⟩

/-- The value is in its register once the code has run. -/
theorem Computes.exists_runs (h : Computes B N lower s code (.virtual v) w) :
    ∃ s', Runs B code s s' ∧ s'.get (.virtual v) = w := by
  obtain ⟨before, i, t, rfl, hrun, -, heffect⟩ := h
  exact ⟨_, hrun.append (Runs.write heffect), State.get_set_self _ _ (by simp)⟩

theorem computes_pair (htemp : N.IsTemporary v) (hlower : lower ≤ v.val)
    (h : i.effect B s.store s.get = .write (.virtual v) u s.store)
    (h' : ∀ t : State (Store World), t.get (.virtual v) = u →
      (∀ r, r ≠ .virtual v → t.get r = s.get r) → j.effect B t.store t.get = .write rd w t.store) :
    Computes B N lower s [i, j] rd w :=
  ⟨[i], j, _, rfl, Runs.write h, keeps_set htemp hlower u,
    h' _ (State.get_set_self _ _ (by simp)) fun _ hr => State.get_set_of_ne _ _ hr⟩

end

theorem Carries.computes {code : List Instr} (C : Carries sel E N fs s) (hN : N.Sound)
    (hv : N.values[d]? = some v) (hcell : sel.slot? d = none)
    (h : Computes (sel.backing E) N lower s code (.virtual v) w) :
    ∃ s', Runs (sel.backing E) code s s' ∧ Carries sel E N (fs.assign d w) s' := by
  obtain ⟨before, i, s1, rfl, hrun, hkeeps, heffect⟩ := h
  exact ⟨_, hrun.append (Runs.write heffect), (C.keeps hkeeps).assign hN hv hcell w⟩

end

end

end MxStar.Machine
