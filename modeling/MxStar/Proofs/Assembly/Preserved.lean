import MxStar.Proofs.Assembly.Run
import MxStar.Proofs.Machine.AllocatedFrame
import MxStar.Proofs.Machine.Executed
import MxStar.Proofs.Machine.FrameParts

/-!
# What a function gives back

A function returns with the stack pointer, the return address and the registers of the callee
as it found them.  Registers that its body may write are saved in the frame before the first
block and restored at a return; the others are never written.  While the body runs, `Intact`
holds: registers that are not saved have not changed, and neither have the saved words.

The frame cannot guard its words against everything.  A store through a pointer may go
anywhere, and so may the stores of a called function; a store to an object of the frame that is
wider than the object goes past its end.  Of these (`mayStray`) it is assumed that they spare
the saved words, and without the assumption on the last kind `smear` loses its return address.
Stores that keep to their object of the frame and stores of stack arguments are shown to spare
them.
-/

namespace MxStar.Assembly

open Machine (Register Physical FrameLayout Function Instr Offset SlotId Width Backing State
  Effect Outcome Options Liveness FramePart)

/-- The registers that every function gives back. -/
def preserved : List Physical :=
  .sp :: .ra :: Physical.calleeSaved

def SavedAt (layout : FrameLayout) (sp x : Word) : Prop :=
  ∃ q ∈ layout.saved, Width.word.Covers (sp + BitVec.ofNat 32 q.2) x

/-- Whether memory outside the objects of the frame may change: at a store through a pointer,
at one that is wider than its object, and at a call. -/
def mayStray (f : Function) : Instr → Bool
  | .store _ _ _ (.immediate _) => true
  | .store width _ _ (.slot id) =>
    match f.frame.objects.get? id with
    | some object => decide (object.size < width.bytes)
    | none => true
  | .call _ _ => true
  | _ => false

variable {p : Physical} {i : Instr}

section

variable {World : Type} {saved : List (Physical × Nat)} {s : State (Store World)}

/-! ## Saving and restoring -/

theorem saveAll_cons (q : Physical × Nat) (rest : List (Physical × Nat)) (s : State (Store World)) :
    saveAll s (q :: rest) = saveAll { s with
      store := s.store.save .word (s.get .sp + BitVec.ofNat 32 q.2)
        (s.get (.physical q.1)) } rest :=
  rfl

theorem restoreAll_cons (q : Physical × Nat) (rest : List (Physical × Nat))
    (s : State (Store World)) :
    restoreAll s (q :: rest) = restoreAll (State.set
      { s with store := (s.store.load .word (s.get .sp + BitVec.ofNat 32 q.2)).2 } (.physical q.1)
      (s.store.memory.read .word (s.get .sp + BitVec.ofNat 32 q.2))) rest :=
  rfl

theorem registers_saveAll (saved : List (Physical × Nat)) (s : State (Store World)) :
    (saveAll s saved).registers = s.registers := by
  induction saved generalizing s with
  | nil => rfl
  | cons q rest ih => rw [saveAll_cons, ih]

theorem get_saveAll (saved : List (Physical × Nat)) (s : State (Store World)) (r : Register) :
    (saveAll s saved).get r = s.get r := by
  simp only [State.get, registers_saveAll]

theorem memory_saveAll (h : ∀ q ∈ saved, ¬ Width.word.Covers (s.get .sp + BitVec.ofNat 32 q.2) x) :
    (saveAll s saved).store.memory x = s.store.memory x := by
  induction saved generalizing s with
  | nil => rfl
  | cons q rest ih =>
    rw [saveAll_cons, ih]
    · exact Memory.write_of_not_covers (h q (.head _))
    · exact fun r hr => h r (.tail _ hr)

theorem read_saveAll (hsaved : saved.Pairwise fun p q => p.2 + wordSize ≤ q.2)
    (hend : ∀ q ∈ saved, q.2 + wordSize ≤ sizeLimit) (hq : q ∈ saved) :
    (saveAll s saved).store.memory.read .word (s.get .sp + BitVec.ofNat 32 q.2) =
      s.get (.physical q.1) := by
  induction saved generalizing s with
  | nil => simp at hq
  | cons p rest ih =>
    obtain ⟨hfirst, hrest⟩ := List.pairwise_cons.mp hsaved
    rw [saveAll_cons]
    rcases List.mem_cons.mp hq with rfl | hq
    · -- the words after it are others
      have hkept : ∀ x, Width.word.Covers (s.get .sp + BitVec.ofNat 32 q.2) x →
          ∀ r ∈ rest, ¬ Width.word.Covers (s.get .sp + BitVec.ofNat 32 r.2) x := by
        intro x hx r hr hcovers
        exact Machine.not_occupies_of_disjoint (hend q (.head _))
          (hend r (.tail _ hr)) (.inl (hfirst r hr))
          (Width.occupies_of_covers hx) (Width.occupies_of_covers hcovers)
      refine Eq.trans (Memory.read_congr fun x hx => memory_saveAll ?_)
        (Memory.read_write_word _ _ _)
      exact hkept x hx
    · exact ih hrest (fun r hr => hend r (.tail _ hr)) hq

theorem get_restoreAll_of_ne (h : ∀ q ∈ saved, p ≠ q.1) :
    (restoreAll s saved).get (.physical p) = s.get (.physical p) := by
  induction saved generalizing s with
  | nil => rfl
  | cons q rest ih =>
    rw [restoreAll_cons, ih fun r hr => h r (List.mem_cons_of_mem _ hr)]
    exact State.get_set_of_ne _ _ fun heq => h q (.head _) (Register.physical.inj heq)

theorem get_restoreAll (hnodup : (saved.map Prod.fst).Nodup) (hsp : ∀ q ∈ saved, q.1 ≠ .sp)
    (hzero : ∀ q ∈ saved, q.1 ≠ .zero) (hq : q ∈ saved) :
    (restoreAll s saved).get (.physical q.1) =
      s.store.memory.read .word (s.get .sp + BitVec.ofNat 32 q.2) := by
  induction saved generalizing s with
  | nil => simp at hq
  | cons p rest ih =>
    obtain ⟨hfirst, hrest⟩ := List.nodup_cons.mp hnodup
    rw [restoreAll_cons]
    rcases List.mem_cons.mp hq with rfl | hq
    · have hother : ∀ r ∈ rest, q.1 ≠ r.1 :=
        fun r hr heq => hfirst (List.mem_map.mpr ⟨r, hr, heq.symm⟩)
      have hne : Register.physical q.1 ≠ .zero :=
        fun heq => hzero q (.head _) (Register.physical.inj heq)
      rw [get_restoreAll_of_ne hother, State.get_set_self _ _ hne]
    · have hkept : Register.sp ≠ .physical p.1 :=
        fun heq => hsp p (.head _) (Register.physical.inj heq).symm
      rw [ih hrest (fun r hr => hsp r (List.mem_cons_of_mem _ hr))
        (fun r hr => hzero r (.tail _ hr)) hq, State.get_set_of_ne _ _ hkept]
      rfl

end

/-! ## Registers that are saved -/

section

variable {f : Function}

theorem saved_of_allocateRegisters
    (h : f.allocateRegisters l options log = .ok (g, l', none) log') :
    g.saved = g.written Physical.calleeSaved := by
  obtain ⟨-, spilled, live, a, -, -, -, rfl⟩ := Machine.Function.allocateRegisters_eq_ok h
  rfl

section

variable (hsaved : f.saved = f.written Physical.calleeSaved)
include hsaved

theorem mem_saved_iff :
    p ∈ f.saved ↔ p ∈ Physical.calleeSaved ∧ ∃ i ∈ f.code, Register.physical p ∈ i.defs := by
  rw [hsaved]
  simp [Function.written]

theorem nodup_frameSaved : f.frameSaved.Nodup := by
  have hnodup : f.saved.Nodup := by
    rw [hsaved]
    exact List.Nodup.filter _ (by decide)
  rw [Function.frameSaved]
  split
  · refine List.nodup_cons.mpr ⟨fun hra => ?_, hnodup⟩
    exact absurd ((mem_saved_iff hsaved).mp hra).1 (by decide)
  · exact hnodup

theorem mem_of_mem_frameSaved (hp : p ∈ f.frameSaved) :
    p ∈ Physical.ra :: Physical.calleeSaved := by
  rw [Function.frameSaved] at hp
  split at hp
  · rcases List.mem_cons.mp hp with rfl | hp
    · exact .head _
    · exact .tail _ ((mem_saved_iff hsaved).mp hp).1
  · exact .tail _ ((mem_saved_iff hsaved).mp hp).1

end

theorem isTracked_of_writes (h : i.Framed u) (hwrites : i.writes = [rd])
    (hcall : ∀ symbol arguments, i ≠ .call symbol arguments) : rd.isTracked = true := by
  cases i with
  | call symbol arguments => exact absurd rfl (hcall symbol arguments)
  | _ => simp_all [Instr.writes, Instr.operands, Instr.Framed]

/-- **The body writes no register that it has to give back and does not save.** -/
theorem get_next_of_not_mem {σ : Type} {B : Backing σ} {incoming : Nat} (hf : f.Orderly incoming)
    (hsaved : f.saved = f.written Physical.calleeSaved) (hi : i ∈ f.code) (hp : p ∈ preserved)
    (hnot : p ∉ f.frameSaved) (s : State σ) :
    (i.next B s).get (.physical p) = s.get (.physical p) := by
  have hfits := Instr.effect_fits B s.store s.get i
  rw [Instr.next]
  cases heffect : i.effect B s.store s.get with
  | write rd value store =>
    rw [heffect] at hfits
    refine State.get_set_of_ne _ _ ?_
    rintro rfl
    have hcall : ∀ symbol arguments, i ≠ .call symbol arguments := by
      rintro symbol arguments rfl
      simp only [Instr.effect] at heffect
      split at heffect <;> simp at heffect
    have htracked := isTracked_of_writes (hf.framed i hi) hfits hcall
    -- of the registers to give back, values are assigned to those of the callee only
    have hcallee : p ∈ Physical.calleeSaved := by
      revert hp htracked
      cases p <;> decide
    have hmem : p ∈ f.saved := (mem_saved_iff hsaved).mpr
      ⟨hcallee, i, hi, Instr.mem_defs.mpr
        ⟨by rw [hfits]; exact List.mem_singleton_self _, htracked⟩⟩
    apply hnot
    rw [Function.frameSaved]
    split
    · exact .tail _ hmem
    · exact hmem
  | clobber after store =>
    rw [heffect] at hfits
    obtain ⟨symbol, arguments, rfl⟩ := hfits
    have hcalls : f.makesCalls = true := hf.framed _ hi
    rw [State.after, State.get_clobber_physical, if_neg]
    · rfl
    · intro hclobbered
      -- the return address is the one register that a call overwrites
      have hra : p = .ra := by
        revert hp hclobbered
        cases p <;> decide
      exact hnot (by simp [Function.frameSaved, hcalls, hra])
  | next store => rfl
  | goto target => rfl
  | ret value => rfl
  | halt reason store => rfl

end

/-! ## Words that are saved -/

section

variable {World : Type} {f : Function} {layout : FrameLayout} {x : Word} {E : Environment World}
  {s : State (Store World)}

theorem not_covers_of_savedAt (hlayout : f.frameLayout = .ok layout) {part : FramePart}
    {width : Width} {sp : Word} (hpart : ∀ n, part ≠ .saved n)
    (hextent : layout.extent? f.frame part = some (a, b)) (hfit : a + width.bytes ≤ b)
    (hx : SavedAt layout sp x) : ¬ width.Covers (sp + BitVec.ofNat 32 a) x := by
  obtain ⟨rfl, hsize⟩ := FrameLayout.compute_eq_ok.mp hlayout
  obtain ⟨q, hq, hcovers⟩ := hx
  obtain ⟨n, hn⟩ := List.getElem?_of_mem hq
  have hword : (FrameLayout.exact f.frame f.frameSaved).extent? f.frame (.saved n) =
      some (q.2, q.2 + wordSize) := FrameLayout.extent?_saved_of_getElem? hn
  have hend := FrameLayout.le_size_of_extent? hword
  have hend' := FrameLayout.le_size_of_extent? hextent
  intro hx
  refine Machine.not_occupies_of_disjoint (by omega) (by omega)
    (FrameLayout.disjoint_extents (hpart n) hextent hword)
    ((Width.occupies_of_covers hx).mono le_rfl hfit) (Width.occupies_of_covers hcovers)

theorem memory_next_store (hresolve : layout.resolve offset = .ok value)
    (h : ¬ width.Covers (s.get base + BitVec.ofInt 32 value) x) :
    ((Instr.store width rs base offset).next (E.backing layout.resolve) s).store.memory x =
      s.store.memory x := by
  simp only [Instr.next, Instr.effect, Environment.backing, hresolve, State.after]
  exact Memory.write_of_not_covers h

/-- **Apart from stores that may stray, the body spares the saved words.** -/
theorem memory_next_of_not_mayStray (hf : f.Orderly incoming) (hlayout : f.frameLayout = .ok layout)
    (hi : i ∈ f.code) (hstray : mayStray f i = false) (hx : SavedAt layout (s.get .sp) x) :
    (i.next (E.backing layout.resolve) s).store.memory x = s.store.memory x := by
  cases i with
  | store width rs base offset =>
    have hwithin := hf.framed _ hi
    cases hresolve : layout.resolve offset with
    | error e => simp only [Instr.next, Instr.effect, Environment.backing, hresolve, State.after]
    | ok value =>
      refine memory_next_store hresolve ?_
      cases offset with
      | immediate value => simp [mayStray] at hstray
      | incoming n => exact absurd hwithin.2.1 (by decide)
      | outgoing n =>
        obtain ⟨rfl, -, hn⟩ := hwithin
        obtain rfl : ((n * wordSize : Nat) : Int) = value := by
          simp only [FrameLayout.resolve, checkSize] at hresolve
          split at hresolve
          · exact Except.ok.inj hresolve
          · cases hresolve
        rw [BitVec.ofInt_natCast]
        have hextent : layout.extent? f.frame (.outgoing n) =
            some (n * wordSize, n * wordSize + wordSize) :=
          FrameLayout.extent?_outgoing.mpr ⟨hn, rfl, rfl⟩
        refine not_covers_of_savedAt hlayout (by simp) hextent ?_ hx
        cases width <;> simp [Width.bytes, wordSize]
      | slot id =>
        obtain ⟨rfl, -⟩ := hwithin
        obtain ⟨start, hstart, rfl⟩ := Except.bind_pure_eq_ok.mp hresolve
        rw [BitVec.ofInt_natCast]
        simp only [mayStray] at hstray
        split at hstray
        · rename_i object hobject
          have hextent : layout.extent? f.frame (.object id) =
              some (start, start + object.size) := by
            simp only [FrameLayout.extent?, hobject, Table.find_eq_ok.mp hstart]
          refine not_covers_of_savedAt hlayout (by simp) hextent ?_ hx
          simpa using hstray
        · simp at hstray
  | call symbol arguments => simp [mayStray] at hstray
  | load width rd base offset =>
    cases hresolve : layout.resolve offset with
    | error e => simp only [Instr.next, Instr.effect, Environment.backing, hresolve, State.after]
    | ok value =>
      simp only [Instr.next, Instr.effect, Environment.backing, hresolve, State.after]
      rfl
  | slotAddress rd slot =>
    cases hresolve : layout.resolve (.slot slot) with
    | error e => simp only [Instr.next, Instr.effect, Environment.backing, hresolve, State.after]
    | ok value =>
      simp only [Instr.next, Instr.effect, Environment.backing, hresolve, State.after]
      rfl
  | aluImm op rd rs1 value =>
    simp only [Instr.next, Instr.effect]
    split <;> rfl
  | _ => rfl

/-- While the body runs: what is not saved has not changed, and neither have the words of what
is saved. -/
structure Intact (f : Function) (layout : FrameLayout) (s0 s : State (Store World)) : Prop where
  register : ∀ p ∈ preserved, p ∉ f.frameSaved → s.get (.physical p) = s0.get (.physical p)
  memory : ∀ x, SavedAt layout (s0.get .sp) x → s.store.memory x = s0.store.memory x

/-- An instruction, if it strays, does not stray to a saved word. -/
def Spares (f : Function) (layout : FrameLayout) (E : Environment World)
    (q : Instr × State (Store World)) : Prop :=
  mayStray f q.1 = true → ∀ x, SavedAt layout (q.2.get .sp) x →
    (q.1.next (E.backing layout.resolve) q.2).store.memory x = q.2.store.memory x

theorem Intact.next (hf : f.Orderly incoming) (hsaved : f.saved = f.written Physical.calleeSaved)
    (hlayout : f.frameLayout = .ok layout) {s0 : State (Store World)}
    {q : Instr × State (Store World)} (hq : q.1 ∈ f.code) (hspares : Spares f layout E q)
    (h : Intact f layout s0 q.2) :
    Intact f layout s0 (q.1.next (E.backing layout.resolve) q.2) := by
  have hsp : q.2.get .sp = s0.get .sp := by
    refine h.register .sp (by decide) fun hmem => ?_
    exact absurd (mem_of_mem_frameSaved hsaved hmem) (by decide)
  constructor
  · intro p hp hnot
    rw [get_next_of_not_mem hf hsaved hq hp hnot, h.register p hp hnot]
  · intro x hx
    rw [← h.memory x hx]
    rw [← hsp] at hx
    cases hstray : mayStray f q.1 with
    | true => exact hspares hstray x hx
    | false => exact memory_next_of_not_mayStray hf hlayout hq hstray hx

/-! ## Whole runs -/

theorem get_enter (hp : p ≠ .sp) (s : State (Store World)) :
    (enter layout s).get (.physical p) = s.get (.physical p) := by
  rw [enter]
  split
  · rfl
  · rw [get_saveAll]
    exact State.get_set_of_ne _ _ fun heq => hp (Register.physical.inj heq)

theorem read_enter (hlayout : f.frameLayout = .ok layout) (hq : q ∈ layout.saved) (hsp : q.1 ≠ .sp)
    (s : State (Store World)) :
    (enter layout s).store.memory.read .word ((enter layout s).get .sp + BitVec.ofNat 32 q.2) =
      s.get (.physical q.1) := by
  obtain ⟨rfl, hlimit⟩ := FrameLayout.compute_eq_ok.mp hlayout
  have hroom := FrameLayout.saved_le_size hq
  rw [enter, if_neg (by simp only [wordSize] at hroom; omega), get_saveAll, read_saveAll
    FrameLayout.pairwise_saved (fun r hr => (FrameLayout.saved_le_size hr).trans hlimit.le) hq]
  exact State.get_set_of_ne _ _ fun heq => hsp (Register.physical.inj heq)

/-- **Leaving undoes entering**, as far as registers to give back are concerned. -/
theorem get_leave (hsaved : f.saved = f.written Physical.calleeSaved)
    (hlayout : f.frameLayout = .ok layout) (h : Intact f layout (enter layout s) s1)
    (hp : p ∈ preserved) : (leave layout s1).get (.physical p) = s.get (.physical p) := by
  have hregs : layout.saved.map Prod.fst = f.frameSaved := by
    rw [(FrameLayout.compute_eq_ok.mp hlayout).1]
    exact FrameLayout.map_fst_saved
  have hcases : ∀ q ∈ layout.saved, q.1 ∈ Physical.ra :: Physical.calleeSaved := by
    intro q hq
    exact mem_of_mem_frameSaved hsaved (hregs ▸ List.mem_map_of_mem hq)
  have hne : ∀ r ∉ Physical.ra :: Physical.calleeSaved, ∀ q ∈ layout.saved, q.1 ≠ r :=
    fun r hr q hq heq => hr (heq ▸ hcases q hq)
  have hsp : s1.get .sp = (enter layout s).get .sp := by
    refine h.register .sp (by decide) fun hmem => ?_
    exact absurd (mem_of_mem_frameSaved hsaved hmem) (by decide)
  by_cases hsize : layout.size = 0
  · -- without a frame nothing is saved
    have hnone : p ∉ f.frameSaved := by
      intro hmem
      rw [← hregs] at hmem
      obtain ⟨q, hq, rfl⟩ := List.mem_map.mp hmem
      obtain ⟨rfl, -⟩ := FrameLayout.compute_eq_ok.mp hlayout
      have hroom := FrameLayout.saved_le_size hq
      simp only [wordSize] at hroom
      omega
    have hkept := h.register p hp hnone
    rw [enter, if_pos hsize] at hkept
    rw [leave, if_pos hsize, hkept]
  · rw [leave, if_neg hsize]
    by_cases hpsp : p = .sp
    · subst hpsp
      rw [State.get_set_self _ _ (by decide),
        get_restoreAll_of_ne fun q hq => (hne .sp (by decide) q hq).symm, hsp, enter,
        if_neg hsize, get_saveAll, State.get_set_self _ _ (by decide), BitVec.sub_add_cancel]
    · rw [State.get_set_of_ne _ _ fun heq => hpsp (Register.physical.inj heq)]
      by_cases hmem : p ∈ f.frameSaved
      · rw [← hregs] at hmem
        obtain ⟨q, hq, rfl⟩ := List.mem_map.mp hmem
        rw [get_restoreAll (hregs ▸ nodup_frameSaved hsaved) (hne .sp (by decide))
          (hne .zero (by decide)) hq, hsp, ← read_enter hlayout hq hpsp s]
        exact Memory.read_congr fun x hx => h.memory x ⟨q, hq, hx⟩
      · rw [get_restoreAll_of_ne fun q hq heq => hmem (by
          rw [← hregs, heq]; exact List.mem_map_of_mem hq), h.register p hp hmem,
          get_enter hpsp]

theorem intact_run (hf : f.Orderly incoming) (hsaved : f.saved = f.written Physical.calleeSaved)
    (hlayout : f.frameLayout = .ok layout)
    (hspares : ∀ q ∈ f.executed (E.backing layout.resolve) count s, Spares f layout E q) :
    Intact f layout s (f.run (E.backing layout.resolve) count s).state := by
  refine Function.run_induction (fun q hq hcode h => ?_) ⟨fun _ _ _ => rfl, fun _ _ => rfl⟩
  exact h.next hf hsaved hlayout hcode (hspares q hq)

/-- **A function gives back what it found.**  Whatever way control takes through the function,
when it returns, the stack pointer, the return address and the registers of the callee are as
they were on entry. -/
theorem get_eq_of_runIn_eq_returned {program : Flow.Program} {selection : Options}
    {m : Machine.Module} {log log' : Log}
    (hm : Machine.Module.ofFlow program selection log = .ok m log')
    {selected : Function} (hselected : selected ∈ m.functions) {l l' : Liveness}
    {options : Options} {before after : Log}
    (hf : selected.allocateRegisters l options before = .ok (f, l', none) after)
    (hlayout : f.frameLayout = .ok layout) (E : Environment World) (count : Nat)
    (s : State (Store World))
    (hspares : ∀ q ∈ f.executed (E.backing layout.resolve) count (enter layout s),
      Spares f layout E q)
    {value : Bool} {t : State (Store World)}
    (hrun : Function.runIn f layout E count s = .returned value t) {p : Physical}
    (hp : p ∈ preserved) : t.get (.physical p) = s.get (.physical p) := by
  obtain ⟨source, -, hsource⟩ := (Machine.Module.forall₂_ofFlow hm).exists_of_mem_right hselected
  have horderly := (Function.Orderly.of_ofFlow hsource False.elim).allocateRegisters hf
  have hsaved := saved_of_allocateRegisters hf
  have hintact := intact_run horderly hsaved hlayout hspares
  rw [Function.runIn] at hrun
  cases hbody : f.run (E.backing layout.resolve) count (enter layout s) with
  | returned value' s₁ =>
    rw [hbody] at hrun hintact
    obtain ⟨-, rfl⟩ := Outcome.returned.inj hrun
    exact get_leave hsaved hlayout hintact hp
  | «at» block s₁ =>
    rw [hbody] at hrun
    cases hrun
  | halted reason s₁ =>
    rw [hbody] at hrun
    cases hrun

end

/-- A function that needs its parameter after a call. -/
def hold : Flow.Function where
  name := "hold"
  returnType := .int
  parameters := [⟨0⟩]
  registers := ⟨#[{ ty := .int }]⟩
  blocks := ⟨#[
    { label := "entry"
      instrs := #[.call none "other" []]
      terminator := some (.ret (some (.register ⟨0⟩))) }]⟩
  layout := [⟨0⟩]

/-- Called functions overwrite what they may and leave memory alone. -/
def quiet : Environment Unit where
  symbol _ := 0
  call _ _ _ memory := some ((), memory, fun _ => 77)

/-- A stack pointer, and a different value in every other register. -/
def numbered : State (Store Unit) where
  registers
    | .physical .sp => 4096
    | .physical p => BitVec.ofNat 32 (1000 + p.number)
    | .virtual _ => 0
  store := { memory := fun _ => 0, world := (), trace := [] }

/-- What the code of `hold` is checked for: it saves two registers, stores nothing else and
returns. -/
def savesAndReturns (f : Function) : Bool :=
  f.frameSaved == [.ra, .s0] && (f.code.all fun i => !(i matches .store _ _ _ _)) &&
    match f.frameLayout with
    | .ok layout => (Function.runIn f layout quiet 1 numbered matches .returned _ _)
    | .error _ => false

/-- A function that is selected and allocated, and whose code passes a check. -/
theorem exists_allocated_of_passes (source : Flow.Function) (check : Function → Bool)
    (h : (Machine.Module.ofFlow { functions := [source] } {} #[]).passes (fun m =>
      m.functions.length == 1 && m.functions.all fun f =>
        (f.allocateRegisters {} {} #[]).passes fun r => r.2.2.isNone && check r.1) = true) :
    ∃ m log f f' l after,
      Machine.Module.ofFlow { functions := [source] } {} #[] = .ok m log ∧ f ∈ m.functions ∧
        f.allocateRegisters {} {} #[] = .ok (f', l, none) after ∧ check f' = true := by
  obtain ⟨m, log, hm, hfacts⟩ := EStateM.exists_of_passes h
  rw [Bool.and_eq_true, List.all_eq_true, beq_iff_eq] at hfacts
  obtain ⟨f, hf⟩ := List.exists_mem_of_length_pos (by omega : 0 < m.functions.length)
  obtain ⟨⟨f', l, failure⟩, after, hf', halloc⟩ := EStateM.exists_of_passes (hfacts.2 f hf)
  rw [Bool.and_eq_true, Option.isNone_iff_eq_none] at halloc
  obtain ⟨rfl, hcheck⟩ := halloc
  exact ⟨m, log, f, f', l, after, hm, hf, hf', hcheck⟩

/-- The return address and the register that the parameter waits in are saved and restored. -/
theorem get_eq_of_runIn_eq_returned_hold :
    ∃ m log f f' l after layout value t,
      Machine.Module.ofFlow { functions := [hold] } {} #[] = .ok m log ∧ f ∈ m.functions ∧
        f.allocateRegisters {} {} #[] = .ok (f', l, none) after ∧ f'.frameLayout = .ok layout ∧
        f'.frameSaved = [.ra, .s0] ∧
        (∀ q ∈ f'.executed (quiet.backing layout.resolve) 1 (enter layout numbered),
          Spares f' layout quiet q) ∧
        Function.runIn f' layout quiet 1 numbered = .returned value t ∧
        ∀ p ∈ preserved, t.get (.physical p) = numbered.get (.physical p) := by
  obtain ⟨m, log, f, f', l, after, hm, hf, hf', hcheck⟩ :=
    exists_allocated_of_passes hold savesAndReturns (by decide +kernel)
  simp only [savesAndReturns, Bool.and_eq_true, beq_iff_eq, List.all_eq_true] at hcheck
  obtain ⟨⟨hsaved, hcode⟩, hrun⟩ := hcheck
  split at hrun
  · rename_i layout hlayout
    have hspares : ∀ q ∈ f'.executed (quiet.backing layout.resolve) 1 (enter layout numbered),
        Spares f' layout quiet q := by
      rintro ⟨i, s⟩ hq hstray x -
      have hstore := hcode i (Function.mem_code_of_mem_executedFrom hq)
      cases i with
      | store width rs base offset => simp at hstore
      | call symbol arguments => rfl
      | _ => simp [mayStray] at hstray
    split at hrun
    · rename_i value t hreturned
      exact ⟨m, log, f, f', l, after, layout, value, t, hm, hf, hf', hlayout, hsaved, hspares,
        hreturned, fun p hp => get_eq_of_runIn_eq_returned hm hf hf' hlayout quiet 1 numbered
          hspares hreturned hp⟩
    · simp at hrun
  · simp at hrun

/-- Two cells of a byte; the register of the second one says that it is a word. -/
def smear : Flow.Function where
  name := "smear"
  returnType := .void
  registers := ⟨#[{ ty := .pointer .bool 1 }, { ty := .pointer .int 1 }]⟩
  cells := #[⟨⟨0⟩, .bool⟩, ⟨⟨1⟩, .bool⟩]
  blocks := ⟨#[
    { label := "entry"
      instrs := #[.alloca ⟨0⟩ .bool, .alloca ⟨1⟩ .bool,
        .store (.constant (.int (-1))) (.register ⟨1⟩), .call none "other" []]
      terminator := some (.ret none) }]⟩
  layout := [⟨0⟩]

/-- What the code of `smear` is checked for: it stores through no pointer, and returns with
another return address. -/
def losesReturnAddress (f : Function) : Bool :=
  (f.code.all fun i => !(i matches .store _ _ _ (.immediate _))) &&
    match f.frameLayout with
    | .ok layout =>
      match Function.runIn f layout quiet 1 numbered with
      | .returned _ t => t.get (.physical .ra) != numbered.get (.physical .ra)
      | _ => false
    | .error _ => false

/-- A word that is written to a cell of a byte reaches the saved return address: stores through
pointers and called functions are not all that has to spare it. -/
theorem get_ne_of_runIn_smear :
    ∃ m log f f' l after layout value t,
      Machine.Module.ofFlow { functions := [smear] } {} #[] = .ok m log ∧ f ∈ m.functions ∧
        f.allocateRegisters {} {} #[] = .ok (f', l, none) after ∧ f'.frameLayout = .ok layout ∧
        (∀ i ∈ f'.code, ∀ width rs base offset, i ≠ .store width rs base (.immediate offset)) ∧
        Function.runIn f' layout quiet 1 numbered = .returned value t ∧
        t.get (.physical .ra) ≠ numbered.get (.physical .ra) := by
  obtain ⟨m, log, f, f', l, after, hm, hf, hf', hcheck⟩ :=
    exists_allocated_of_passes smear losesReturnAddress (by decide +kernel)
  simp only [losesReturnAddress, Bool.and_eq_true, List.all_eq_true] at hcheck
  obtain ⟨hcode, hrun⟩ := hcheck
  split at hrun
  · rename_i layout hlayout
    split at hrun
    · rename_i value t hreturned
      refine ⟨m, log, f, f', l, after, layout, value, t, hm, hf, hf', hlayout, ?_, hreturned,
        bne_iff_ne.mp hrun⟩
      rintro i hi width rs base offset rfl
      simpa using hcode _ hi
    · cases hrun
  · cases hrun

end MxStar.Assembly
