import MxStar.Proofs.Machine.SpillCode
import MxStar.Proofs.Machine.SymbolicFrame

/-!
# Registers that live in the frame

Code with spill code runs like the code before it, block by block, over a frame
with the objects that were added.  The relation between the two runs is
`InFrame`: what can be seen is the same, every register that was not spilled has
its value, and the value of a spilled register is in its object.
-/

namespace MxStar.Machine

/-! ## Longer frames -/

def Effect.map {σ : Type} (f : σ → σ) : Effect σ → Effect σ
  | .next store => .next (f store)
  | .write rd value store => .write rd value (f store)
  | .clobber after store => .clobber after (f store)
  | .goto target => .goto target
  | .ret value => .ret value
  | .halt reason store => .halt reason (f store)

section

variable {World : Type}

def Store.extend (total : Nat) (extra : SlotId → Word) (store : Store World) : Store World :=
  { store with spilled := fun id => if id.val < total then store.spilled id else extra id }

@[simp]
theorem Store.hide_extend (total : Nat) (extra : SlotId → Word) (store : Store World) :
    (store.extend total extra).hide = store.hide := rfl

variable {total : Nat} {extra : SlotId → Word} {store : Store World} {id : SlotId}

theorem Store.spilled_extend (h : total ≤ id.val) :
    (store.extend total extra).spilled id = extra id :=
  if_neg (Nat.not_lt.mpr h)

theorem Store.spill_extend (h : id.val < total) (value : Word) :
    (store.extend total extra).spill id value = (store.spill id value).extend total extra := by
  simp only [spill, extend, Store.mk.injEq, true_and]
  funext slot
  by_cases hslot : slot = id
  · subst hslot
    simp [h]
  · simp [hslot]

theorem Store.spill_extend_of_le (h : total ≤ id.val) (value : Word) :
    (store.extend total extra).spill id value =
      store.extend total fun slot => if slot = id then value else extra slot := by
  simp only [spill, extend, Store.mk.injEq, true_and]
  funext slot
  by_cases hslot : slot = id
  · subst hslot
    simp [Nat.not_lt.mpr h]
  · simp [hslot]

/-- **An instruction that keeps to its frame does the same over a longer one.** -/
theorem Instr.effect_extend (E : Environment World) (htotal : total ≤ total')
    (extra : SlotId → Word) (store : Store World) (get : Register → Word) (i : Instr) :
    (∃ after, i.effect (E.backing shared total) store get = .halt .outside after) ∨
      i.effect (E.backing shared total') (store.extend total extra) get =
        (i.effect (E.backing shared total) store get).map (Store.extend total extra) := by
  cases i with
  | aluImm op rd rs1 value =>
    right
    simp only [effect]
    split <;> rfl
  | slotAddress rd slot =>
    right
    simp only [effect, Environment.backing]
    by_cases h : slot.val < shared <;> simp [h, Effect.map]
  | load width rd base offset =>
    cases offset with
    | slot id =>
      simp only [effect, Environment.backing]
      by_cases h : id.val < shared
      · right
        simp only [h, if_true]
        rfl
      · by_cases hid : id.val < total
        · right
          simp [h, hid, hid.trans_le htotal, Store.extend, Effect.map]
        · left
          simp [h, hid]
    | outgoing n =>
      right
      simp only [effect, Environment.backing, Store.extend]
      cases store.outgoing n <;> rfl
    | _ => exact Or.inr rfl
  | store width rs base offset =>
    cases offset with
    | slot id =>
      simp only [effect, Environment.backing]
      by_cases h : id.val < shared
      · right
        simp only [h, if_true]
        rfl
      · by_cases hid : id.val < total
        · right
          simp only [h, hid, hid.trans_le htotal, if_true, if_false, Store.spill_extend hid,
            Effect.map]
          simp [Store.extend, hid]
        · left
          simp [h, hid]
    | _ => exact Or.inr rfl
  | call symbol arguments =>
    right
    simp only [effect, Environment.backing, Store.extend]
    generalize E.call store.world _ store.memory = answer
    cases answer <;> rfl
  | _ => exact Or.inr rfl

/-- The second state has the spilled registers of the first in its frame, as
`extra`, and the others, as far as they are numbered below `lower`, in place. -/
structure InFrame (slots : SpillSlots) (lower total : Nat) (extra : SlotId → Word)
    (s s' : State (Store World)) : Prop where
  store : s'.store = s.store.extend total extra
  physical : ∀ p, s'.get (.physical p) = s.get (.physical p)
  register : ∀ v : VirtualId, v.val < lower → slots[v]? = none →
    s'.get (.virtual v) = s.get (.virtual v)
  spilled : ∀ (v : VirtualId) (id : SlotId), slots[v]? = some id → s.get (.virtual v) = extra id

/-- Load registers from their objects, one after the other. -/
def State.reload (s : State (Store World)) (list : List (Register × SlotId)) :
    State (Store World) :=
  list.foldl (fun s p => s.set p.1 (s.store.spilled p.2)) s

namespace State

@[simp]
theorem store_reload (s : State (Store World)) (list : List (Register × SlotId)) :
    (s.reload list).store = s.store := by
  induction list generalizing s with
  | nil => rfl
  | cons p rest ih => exact ih _

theorem get_reload_of_not_mem {s : State (Store World)} (h : ∀ p ∈ list, p.1 ≠ r) :
    (s.reload list).get r = s.get r := by
  induction list generalizing s with
  | nil => rfl
  | cons p rest ih =>
    refine (ih fun q hq => h q (.tail _ hq)).trans ?_
    exact get_set_of_ne _ _ (h p (.head _)).symm

theorem get_reload_of_mem {s : State (Store World)} (hnodup : (list.map Prod.fst).Nodup)
    {id : SlotId} (hr : r ≠ .zero) (h : (r, id) ∈ list) :
    (s.reload list).get r = s.store.spilled id := by
  induction list generalizing s with
  | nil => simp at h
  | cons p rest ih =>
    rw [List.map_cons, List.nodup_cons] at hnodup
    rcases List.mem_cons.mp h with rfl | hrest
    · show ((s.set r (s.store.spilled id)).reload rest).get r = s.store.spilled id
      rw [get_reload_of_not_mem, get_set_self _ _ hr]
      rintro q hq rfl
      exact hnodup.1 (List.mem_map.mpr ⟨q, hq, rfl⟩)
    · exact ih hnodup.2 hrest

end State

theorem runCode_reload (E : Environment World) {total : Nat}
    (h : ∀ p ∈ list, shared ≤ p.2.val ∧ p.2.val < total) (rest : List Instr)
    (s : State (Store World)) :
    runCode (E.backing shared total)
        (list.map (fun (r, slot) => Instr.load .word r .sp (.slot slot)) ++ rest) s =
      runCode (E.backing shared total) rest (s.reload list) := by
  induction list generalizing s with
  | nil => rfl
  | cons p tail ih =>
    obtain ⟨hshared, htotal⟩ := h p (.head _)
    have heffect : (Instr.load .word p.1 .sp (.slot p.2)).effect (E.backing shared total) s.store
        s.get = .write p.1 (s.store.spilled p.2) s.store := by
      simp [Instr.effect, Environment.backing, Nat.not_lt.mpr hshared, htotal, Width.part]
    rw [List.map_cons, List.cons_append, runCode, heffect]
    exact ih (fun q hq => h q (.tail _ hq)) _

section

variable {slots : SpillSlots} {lower total next : Nat} {extra : SlotId → Word}
  {s s' : State (Store World)} {i : Instr}

def Instr.reloads (i : Instr) (slots : SpillSlots) (next : Nat) : List (Register × SlotId) :=
  slotTemporaries slots (i.temporaries slots next) (i.spilledOperands slots [.use])

theorem get_reload_reloads
    (S : Stands lower (i.spilledOperands slots [.use, .define])
      (renameBy (i.temporaries slots next)))
    (hr : ∀ v : VirtualId, r = .virtual v → v.val < lower) :
    (s'.reload (i.reloads slots next)).get r = s'.get r := by
  apply State.get_reload_of_not_mem
  rintro ⟨q, id⟩ hq rfl
  obtain ⟨v, hv, -, rfl⟩ := mem_slotTemporaries.mp hq
  obtain ⟨t, ht, hlower⟩ := S.fresh v (mem_named [.use] (by simp) hv)
  have := hr t ht
  omega

/-- **After the reloads, an instruction finds what it reads** under its new names. -/
theorem InFrame.get_rename (I : InFrame slots lower total extra s s')
    (hslots : SlotsFresh slots total total')
    (S : Stands lower (i.spilledOperands slots [.use, .define])
      (renameBy (i.temporaries slots next)))
    (hread : ∀ v : VirtualId, r = .virtual v → r ∈ i.reads ∧ v.val < lower) :
    (s'.reload (i.reloads slots next)).get (renameBy (i.temporaries slots next) r) = s.get r := by
  cases r with
  | physical p =>
    rw [S.physical, get_reload_reloads S (by simp)]
    exact I.physical p
  | virtual v =>
    obtain ⟨hmem, hlt⟩ := hread v rfl
    cases hv : slots[v]? with
    | none =>
      have hnot : v ∉ i.spilledOperands slots [.use, .define] := by
        intro h
        have := (Instr.mem_spilledOperands.mp h).1
        rw [Std.ExtTreeMap.mem_iff_isSome_getElem?, hv] at this
        simp at this
      rw [S.other v hnot, get_reload_reloads S (by rintro w ⟨⟩; exact hlt)]
      exact I.register v hlt hv
    | some id =>
      have hslot : v ∈ slots := by
        rw [Std.ExtTreeMap.mem_iff_isSome_getElem?, hv]
        rfl
      have huse : v ∈ i.spilledOperands slots [.use] :=
        Instr.mem_spilledOperands.mpr ⟨hslot, .use, by simp, Instr.virtual_mem_reads.mp hmem⟩
      have hnodup : ((i.reloads slots next).map Prod.fst).Nodup := by
        apply nodup_slotTemporaries (i.nodup_spilledOperands [.use])
        intro w hw w' hw'
        exact S.injective w (mem_named [.use] (by simp) hw) w' (mem_named [.use] (by simp) hw')
      obtain ⟨t, ht, -⟩ := S.fresh v (mem_named [.use] (by simp) huse)
      have hreload : (renameBy (i.temporaries slots next) (.virtual v), id) ∈
          i.reloads slots next := mem_slotTemporaries.mpr ⟨v, huse, hv, rfl⟩
      rw [State.get_reload_of_mem hnodup (by simp [ht]) hreload, I.store,
        Store.spilled_extend (hslots.lower_le v id hv), I.spilled v id hv]

namespace InFrame

variable (I : InFrame slots lower total extra s s')
include I

theorem reload (S : Stands lower (i.spilledOperands slots [.use, .define])
      (renameBy (i.temporaries slots next))) :
    InFrame slots lower total extra s (s'.reload (i.reloads slots next)) where
  store := by rw [State.store_reload, I.store]
  physical := by
    intro p
    rw [get_reload_reloads S (by simp), I.physical]
  register := by
    intro v hlt hv
    rw [get_reload_reloads S (by rintro w ⟨⟩; exact hlt), I.register v hlt hv]
  spilled := I.spilled

theorem withStore (store : Store World) : InFrame slots lower total extra { s with store }
      { s' with store := store.extend total extra } where
  store := rfl
  physical := I.physical
  register := I.register
  spilled := I.spilled

theorem set (hrd : ∀ v : VirtualId, rd = .virtual v → slots[v]? = none) (value : Word) :
    InFrame slots lower total extra (s.set rd value) (s'.set rd value) where
  store := I.store
  physical := by
    intro p
    rw [State.get_set, State.get_set, I.physical]
  register := by
    intro v hlt hv
    rw [State.get_set, State.get_set, I.register v hlt hv]
  spilled := by
    intro v id hv
    have hne : Register.virtual v ≠ rd := by
      rintro rfl
      simp [hrd v rfl] at hv
    rw [State.get_set_of_ne _ _ hne]
    exact I.spilled v id hv

theorem set_spilled (hslots : SlotsFresh slots total total') {id : SlotId}
    (hv : slots[v]? = some id) (ht : lower ≤ t.val) (value : Word) :
    InFrame slots lower total (fun slot => if slot = id then value else extra slot)
      (s.set (.virtual v) value)
      (State.set { s' with store := s'.store.spill id value } (.virtual t) value) where
  store := by
    show s'.store.spill id value = _
    rw [I.store, Store.spill_extend_of_le (hslots.lower_le v id hv)]
    rfl
  physical := by
    intro p
    rw [State.get_set_of_ne _ _ (by simp), State.get_set_of_ne _ _ (by simp)]
    exact I.physical p
  register := by
    intro w hlt hw
    have hwt : Register.virtual w ≠ .virtual t := by
      rintro ⟨⟩
      omega
    have hwv : Register.virtual w ≠ .virtual v := by
      rintro ⟨⟩
      simp [hw] at hv
    rw [State.get_set_of_ne _ _ hwt, State.get_set_of_ne _ _ hwv]
    exact I.register w hlt hw
  spilled := by
    intro w slot hw
    by_cases hwv : w = v
    · subst hwv
      obtain rfl : slot = id := Option.mem_unique hw hv
      rw [State.get_set_self _ _ (by simp)]
      simp
    · have hslot : slot ≠ id := by
        rintro rfl
        exact hwv (hslots.injective w v slot hw hv)
      rw [State.get_set_of_ne _ _ (by simpa using hwv), if_neg hslot]
      exact I.spilled w slot hw

theorem clobber (after : Physical → Word) :
    InFrame slots lower total extra (s.clobber after) (s'.clobber after) where
  store := I.store
  physical := by
    intro p
    rw [State.get_clobber_physical, State.get_clobber_physical, I.physical]
  register := by
    intro v hlt hv
    rw [State.get_clobber_virtual, State.get_clobber_virtual, I.register v hlt hv]
  spilled := by
    intro v id hv
    rw [State.get_clobber_virtual]
    exact I.spilled v id hv

end InFrame

end

end

/-- Two runs have got to the same place, in related states. -/
inductive Outcome.Match {σ : Type} (R : State σ → State σ → Prop) : Outcome σ → Outcome σ → Prop
  | at {block s s'} : R s s' → Match R (.at block s) (.at block s')
  | returned {value s s'} : R s s' → Match R (.returned value s) (.returned value s')
  | halted {reason s s'} : R s s' → Match R (.halted reason s) (.halted reason s')

section

variable {World : Type} {slots : SpillSlots}

theorem mem_slots_of_getElem? {id : SlotId} (h : slots[v]? = some id) : v ∈ slots := by
  rw [Std.ExtTreeMap.mem_iff_isSome_getElem?, h]
  rfl

theorem not_mem_slots_of_getElem? (h : slots[v]? = none) : v ∉ slots := by
  rw [Std.ExtTreeMap.mem_iff_isSome_getElem?, h]
  simp

variable {extra : SlotId → Word} {next : Nat}

variable (E : Environment World)
include E

/-- **What an instruction writes reaches its place.**  The stores after it put a
spilled register into its object. -/
theorem InFrame.writeBack (hshared : shared ≤ total) (hslots : SlotsFresh slots total total')
    {i : Instr} (I : InFrame slots lower total extra s s')
    (S : Stands lower (i.spilledOperands slots [.use, .define])
      (renameBy (i.temporaries slots next))) {rd : Register} (hw : i.writes = [rd]) (value : Word)
    (rest : List Instr) :
    ∃ s1 extra1, InFrame slots lower total extra1 (s.set rd value) s1 ∧
      runCode (E.backing shared total')
        ((slotTemporaries slots (i.temporaries slots next) (i.spilledOperands slots [.define])).map
          (fun (r, slot) => Instr.store .word r .sp (.slot slot)) ++ rest)
        (s'.set (renameBy (i.temporaries slots next) rd) value) =
      runCode (E.backing shared total') rest s1 := by
  by_cases hspilled : ∃ v id, rd = .virtual v ∧ slots[v]? = some id
  · obtain ⟨v, id, rfl, hv⟩ := hspilled
    have hslot := mem_slots_of_getElem? hv
    have hdefine := Instr.spilledOperands_define_eq_singleton hslot hw
    obtain ⟨t, ht, hlower⟩ := S.fresh v (mem_named [.define] (by simp) (by rw [hdefine]; simp))
    have hstores : slotTemporaries slots (i.temporaries slots next) [v] =
        [(Register.virtual t, id)] := by
      simp [slotTemporaries, hv, ht]
    refine ⟨_, _, I.set_spilled hslots hv hlower value, ?_⟩
    have hlow := hslots.lower_le v id hv
    have hup := hslots.lt_upper v id hv
    have heffect : ∀ t' : State (Store World), t'.get (.virtual t) = value →
        (Instr.store .word (.virtual t) .sp (.slot id)).effect (E.backing shared total') t'.store
          t'.get = .next (t'.store.spill id value) := by
      intro t' hvalue
      simp [Instr.effect, Environment.backing, Nat.not_lt.mpr (hshared.trans hlow), hup,
        Width.merge, hvalue]
    rw [hdefine, hstores, ht, List.map_singleton, List.singleton_append, runCode,
      heffect _ (State.get_set_self _ _ (by simp))]
    rfl
  · have hother : ∀ v : VirtualId, rd = .virtual v → slots[v]? = none := by
      intro v hv
      cases hslot : slots[v]? with
      | none => rfl
      | some id => exact absurd ⟨v, id, hv, hslot⟩ hspilled
    have hdefine : i.spilledOperands slots [.define] = [] := by
      apply Instr.spilledOperands_define_eq_nil
      intro v hv hmem
      rw [hw, List.mem_singleton] at hmem
      exact not_mem_slots_of_getElem? (hother v hmem.symm) hv
    have hrename : renameBy (i.temporaries slots next) rd = rd := by
      cases rd with
      | physical p => exact S.physical p
      | virtual v =>
        apply S.other
        intro hmem
        exact not_mem_slots_of_getElem? (hother v rfl) (Instr.mem_spilledOperands.mp hmem).1
    refine ⟨_, _, I.set hother value, ?_⟩
    rw [hdefine, hrename]
    rfl

theorem InFrame.effect_eq (htotal : total ≤ total') (hslots : SlotsFresh slots total total')
    {i : Instr} (I : InFrame slots lower total extra s s')
    (S : Stands lower (i.spilledOperands slots [.use, .define])
      (renameBy (i.temporaries slots next)))
    (hbelow : ∀ v : VirtualId, .virtual v ∈ i.reads → v.val < lower)
    (hinside : ∀ after, i.effect (E.backing shared total) s.store s.get ≠ .halt .outside after) :
    (i.mapRegisters (renameBy (i.temporaries slots next))).effect (E.backing shared total')
        (s'.reload (i.reloads slots next)).store (s'.reload (i.reloads slots next)).get =
      ((i.effect (E.backing shared total) s.store s.get).map (Store.extend total extra)).rename
        (renameBy (i.temporaries slots next)) := by
  have hread : ∀ r ∈ Register.sp :: i.reads,
      (s'.reload (i.reloads slots next)).get (renameBy (i.temporaries slots next) r) = s.get r := by
    intro r hr
    apply I.get_rename hslots S
    rintro v rfl
    rcases List.mem_cons.mp hr with hsp | hr
    · simp [Register.sp] at hsp
    · exact ⟨hr, hbelow v hr⟩
  rw [Instr.effect_mapRegisters _ _ _ S.physical, State.store_reload, I.store]
  congr 1
  rcases Instr.effect_extend E htotal extra s.store s.get i with ⟨after, hout⟩ | heq
  · exact absurd hout (hinside after)
  · rw [← heq]
    apply Instr.effect_congr (E.readsArguments_backing shared total')
    · exact hread .sp (.head _)
    · intro r hr
      exact hread r (.tail _ hr)

theorem InFrame.match_runCode (hshared : shared ≤ total) (htotal : total ≤ total')
    (hslots : SlotsFresh slots total total') {code : List Instr} (hlower : lower ≤ next)
    (hlimit : (spillCode slots next code).2 ≤ sizeLimit)
    (hbelow : ∀ i ∈ code, ∀ v : VirtualId, .virtual v ∈ i.reads → v.val < lower)
    (I : InFrame slots lower total extra s s')
    (hinside : ¬ (runCode (E.backing shared total) code s).IsOutside) :
    (runCode (E.backing shared total) code s).Match
      (fun s s' => ∃ extra, InFrame slots lower total extra s s')
      (runCode (E.backing shared total') (spillCode slots next code).1 s') := by
  induction code generalizing next s s' extra with
  | nil => exact .halted ⟨extra, I⟩
  | cons i rest ih =>
    have hnext := le_snd_spillCode slots (next + (i.temporaries slots next).length) rest
    have hlimit' : (spillCode slots (next + (i.temporaries slots next).length) rest).2 ≤
        sizeLimit := hlimit
    have S := stands_temporaries i slots hlower (hnext.trans hlimit')
    have hstep := fun {extra s s'} => @ih extra _ s s' (hlower.trans (Nat.le_add_right _ _)) hlimit'
      fun j hj => hbelow j (.tail _ hj)
    have hreloads : ∀ p ∈ i.reloads slots next, shared ≤ p.2.val ∧ p.2.val < total' := by
      rintro ⟨r, id⟩ hp
      obtain ⟨v, -, hv, -⟩ := mem_slotTemporaries.mp hp
      exact ⟨hshared.trans (hslots.lower_le v id hv), hslots.lt_upper v id hv⟩
    have hcode : (spillCode slots next (i :: rest)).1 =
        (i.reloads slots next).map (fun (r, slot) => Instr.load .word r .sp (.slot slot)) ++
          (i.mapRegisters (renameBy (i.temporaries slots next)) ::
            ((slotTemporaries slots (i.temporaries slots next)
              (i.spilledOperands slots [.define])).map
                (fun (r, slot) => Instr.store .word r .sp (.slot slot)) ++
              (spillCode slots (next + (i.temporaries slots next).length) rest).1)) := by
      simp [spillCode, Instr.spill, Instr.reloads]
    have hkeeps : (∀ v ∈ slots, .virtual v ∉ i.writes) →
        slotTemporaries slots (i.temporaries slots next)
          (i.spilledOperands slots [.define]) = [] := by
      intro h
      rw [Instr.spilledOperands_define_eq_nil h]
      rfl
    have I' := I.reload S
    have hfits := i.effect_fits (E.backing shared total) s.store s.get
    rw [hcode, runCode_reload E hreloads]
    simp only [runCode] at hinside ⊢
    rw [I.effect_eq E htotal hslots S (hbelow i List.mem_cons_self)
      (by intro after hout; simp [hout, Outcome.IsOutside] at hinside)]
    cases heff : i.effect (E.backing shared total) s.store s.get with
    | next store =>
      rw [heff] at hfits hinside
      simp only [Effect.map, Effect.rename]
      rw [hkeeps (by rw [hfits]; simp)]
      exact hstep (I'.withStore store) hinside
    | write rd value store =>
      rw [heff] at hfits hinside
      simp only [Effect.map, Effect.rename]
      obtain ⟨s1, extra1, I1, hback⟩ :=
        (I'.withStore store).writeBack E hshared hslots S hfits value
          (spillCode slots (next + (i.temporaries slots next).length) rest).1
      rw [hback]
      exact hstep I1 hinside
    | clobber after store =>
      rw [heff] at hfits hinside
      simp only [Effect.map, Effect.rename]
      obtain ⟨symbol, arguments, rfl⟩ := hfits
      rw [hkeeps (by simp [Instr.writes])]
      exact hstep ((I'.withStore store).clobber after) hinside
    | goto target => exact .at ⟨extra, I'⟩
    | ret value => exact .returned ⟨extra, I'⟩
    | halt reason store => exact .halted ⟨extra, I'.withStore store⟩

end

namespace Function

theorem match_runFrom_spill {World : Type} (E : Environment World) {f : Function}
    {registers : List VirtualId} {shared : Nat} (hshared : shared ≤ f.frame.objects.size)
    (hbelow : ∀ v ∈ f.inUse, v.val < f.virtuals)
    (hlimit : (f.spill registers).virtuals ≤ sizeLimit) (count : Nat) {b : BlockId}
    {extra : SlotId → Word} {s s' : State (Store World)}
    (I : InFrame (allocateSlots f.frame registers).2 f.virtuals f.frame.objects.size extra s s')
    (hinside : ¬ (f.runFrom (E.backing shared f.frame.objects.size) count b s).IsOutside) :
    (f.runFrom (E.backing shared f.frame.objects.size) count b s).Match
      (fun s s' => ∃ extra, InFrame (allocateSlots f.frame registers).2 f.virtuals
        f.frame.objects.size extra s s')
      ((f.spill registers).runFrom
        (E.backing shared (f.spill registers).frame.objects.size) count b s') := by
  obtain ⟨hsize, hslots⟩ := allocateSlots_spec f.frame registers
  induction count generalizing b extra s s' with
  | zero => exact .at ⟨extra, I⟩
  | succ count ih =>
    have hblock : ¬ (f.runBlock (E.backing shared f.frame.objects.size) b s).IsOutside →
        (f.runBlock (E.backing shared f.frame.objects.size) b s).Match
          (fun s s' => ∃ extra, InFrame (allocateSlots f.frame registers).2 f.virtuals
            f.frame.objects.size extra s s')
          ((f.spill registers).runBlock
            (E.backing shared (f.spill registers).frame.objects.size) b s') := by
      intro hin
      simp only [runBlock] at hin ⊢
      cases hb : f.blocks.get? b with
      | none =>
        rw [get?_spill_eq_none hb]
        exact .halted ⟨extra, I⟩
      | some block =>
        rw [hb] at hin
        obtain ⟨start, hstart, hend, hget⟩ := get?_spill registers hb
        rw [hget]
        refine I.match_runCode E hshared hsize hslots hstart (hend.trans hlimit) ?_ hin
        intro i hi v hv
        apply hbelow
        rw [mem_inUse]
        exact ⟨block, Array.mem_toList_iff.mpr (Array.mem_of_getElem? hb), i, hi, Or.inl hv⟩
    simp only [runFrom] at hinside ⊢
    generalize f.runBlock (E.backing shared f.frame.objects.size) b s = o at hblock hinside ⊢
    generalize (f.spill registers).runBlock _ b s' = o' at hblock ⊢
    cases o with
    | «at» next t =>
      cases hblock (by simp [Outcome.IsOutside]) with
      | «at» h =>
        obtain ⟨extra', I'⟩ := h
        exact ih I' hinside
    | returned value t =>
      cases hblock (by simp [Outcome.IsOutside]) with
      | returned h => exact .returned h
    | halted reason t =>
      cases hblock hinside with
      | halted h => exact .halted h

end Function

end MxStar.Machine
