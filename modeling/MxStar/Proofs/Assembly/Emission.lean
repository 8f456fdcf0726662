import MxStar.Proofs.Assembly.Run
import MxStar.Proofs.Logged

/-!
# Lines of an instruction

The lines of one instruction come to the same as the instruction, be they short
or long (`agree_instr`), and so do the prologue and the epilogue.  Large offsets
are built in the scratch register, so that register is left out when states are
compared (`Same`).
-/

namespace MxStar.Assembly

open Machine (Register Physical FrameLayout Function Instr Offset SlotId Width Backing Halt State
  Effect Outcome BlockId Block AluOp AluImmOp runCode TerminatorLast)

/-! ## States that differ in the scratch register -/

section

variable {σ : Type} {s s' : State σ}

/-- Two states are the same but for the scratch register. -/
structure Same (s s' : State σ) : Prop where
  store : s'.store = s.store
  get : ∀ r, r ≠ scratch → s'.get r = s.get r

namespace Same

theorem refl (s : State σ) : Same s s := ⟨rfl, fun _ _ => rfl⟩

variable (h : Same s s')
include h

theorem withStore (store : σ) : Same { s with store } { s' with store } := ⟨rfl, h.get⟩

theorem set (rd : Register) (w : Word) : Same (s.set rd w) (s'.set rd w) := by
  refine ⟨h.store, fun r hr => ?_⟩
  rw [State.get_set, State.get_set, h.get r hr]

theorem setScratch (w : Word) : Same s (s'.set scratch w) := by
  refine ⟨h.store, fun r hr => ?_⟩
  rw [State.get_set_of_ne _ _ hr, h.get r hr]

theorem clobber (after : Physical → Word) : Same (s.clobber after) (s'.clobber after) := by
  refine ⟨h.store, fun r hr => ?_⟩
  cases r with
  | physical p => rw [State.get_clobber_physical, State.get_clobber_physical, h.get _ hr]
  | virtual v => rw [State.get_clobber_virtual, State.get_clobber_virtual, h.get _ hr]

end Same

/-! ## Lines that run to their end -/

variable {B : Backing σ} {text lines : List Line} {s'' : State σ}

/-- The lines run to their end and leave the second state, whatever follows them. -/
def Passes (B : Backing σ) (text lines : List Line) (s s' : State σ) : Prop :=
  ∀ rest, runLines B text (lines ++ rest) s = runLines B text rest s'

namespace Passes

theorem nil : Passes B text [] s s := fun _ => rfl

theorem append (h : Passes B text lines s s') (h' : Passes B text lines' s' s'') :
    Passes B text (lines ++ lines') s s'' := by
  intro rest
  rw [List.append_assoc, h, h']

theorem next {store : σ} (hi : line.instr? = some i) (h : i.effect B s.store s.get = .next store) :
    Passes B text [line] s { s with store } := by
  intro rest
  rw [List.singleton_append, runLines_instr hi, h]

theorem write {store : σ} (hi : line.instr? = some i)
    (h : i.effect B s.store s.get = .write rd value store) :
    Passes B text [line] s (State.set { s with store } rd value) := by
  intro rest
  rw [List.singleton_append, runLines_instr hi, h]

end Passes

end

/-! ## Numbers -/

theorem toInt_ofInt_of_isWord (h : isWord value = true) :
    (BitVec.ofInt 32 value).toInt = value := by
  simp only [isWord, decide_eq_true_eq] at h
  rw [BitVec.toInt_ofInt]
  exact Int.bmod_eq_of_le (by omega) (by omega)

theorem isWord_toInt (w : Word) : isWord w.toInt = true := by
  have hlower := BitVec.le_toInt w
  have hupper := BitVec.toInt_lt (x := w)
  simp only [isWord, decide_eq_true_eq]
  omega

theorem Line.instr?_li (h : isWord value = true) (rd : Register) :
    (Line.li rd value).instr? = some (.li rd (BitVec.ofInt 32 value)) := if_pos h

/-! ## Short and long forms -/

section

variable {World : Type} {E : Environment World} {text : List Line} {s s' : State (Store World)}
  {base : Register} {offset : Int} {saved : List (Physical × Nat)}

theorem passes_access (E : Environment World) (text : List Line) (line : Register → Int → Line)
    (hsame : Same s s') (hbase : base ≠ scratch) (hword : isWord offset = true) :
    ∃ lines base' offset' s'', access line base offset = lines ++ [line base' offset'] ∧
      Passes (E.backing immediate) text lines s' s'' ∧ Same s s'' ∧
      fitsImmediate offset' = true ∧
      s''.get base' + BitVec.ofInt 32 offset' = s.get base + BitVec.ofInt 32 offset ∧
      (fitsImmediate offset = true → s'' = s') := by
  simp only [access]
  split
  · rename_i hfits
    refine ⟨[], base, offset, s', rfl, Passes.nil, hsame, hfits, ?_, fun _ => rfl⟩
    rw [hsame.get base hbase]
  · rename_i hfits
    refine ⟨[.li scratch offset, .alu .add scratch scratch base], scratch, 0, _, rfl,
      Passes.append (Passes.write (Line.instr?_li hword scratch) rfl) (Passes.write rfl rfl),
      (hsame.setScratch _).setScratch _, rfl, ?_, fun h => absurd h hfits⟩
    rw [State.get_set_self _ _ (by decide), State.get_set_self _ _ (by decide)]
    simp only [AluOp.apply]
    rw [State.get_set_of_ne _ _ hbase, hsame.get base hbase]
    simp [BitVec.add_comm]

theorem passes_addToStack (E : Environment World) (text : List Line) (rd : Register)
    (hsame : Same s s') (hword : isWord amount = true) :
    ∃ s'', Passes (E.backing immediate) text (addToStack rd amount) s' s'' ∧
      Same (s.set rd (s.get .sp + BitVec.ofInt 32 amount)) s'' ∧
      (fitsImmediate amount = true → s'' = s'.set rd (s'.get .sp + BitVec.ofInt 32 amount)) := by
  have hsp : s'.get .sp = s.get .sp := hsame.get _ (by decide)
  simp only [addToStack]
  split
  · rename_i hfits
    have hencodes : AluImmOp.addi.encodes (BitVec.ofInt 32 amount) = true := by
      simpa [AluImmOp.encodes, toInt_ofInt_of_isWord hword] using hfits
    refine ⟨_, Passes.write (i := .aluImm .addi rd .sp (BitVec.ofInt 32 amount))
      (by simp [Line.instr?, hword]) (by simp only [Instr.effect, hencodes, if_true]; rfl), ?_,
      fun _ => rfl⟩
    rw [← hsp]
    exact hsame.set rd _
  · rename_i hfits
    refine ⟨_, Passes.append (Passes.write (Line.instr?_li hword scratch) rfl)
      (Passes.write rfl rfl), ?_, fun h => absurd h hfits⟩
    have hvalue : (s'.set scratch (BitVec.ofInt 32 amount)).get .sp = s.get .sp := by
      rw [State.get_set_of_ne _ _ (by decide), hsp]
    simp only [AluOp.apply]
    rw [← hvalue, State.get_set_self _ _ (by decide)]
    exact (hsame.setScratch _).set rd _

theorem effect_load :
    (Instr.load width rd base (.immediate (BitVec.ofInt 32 offset))).effect (E.backing immediate)
      s.store s.get = .write rd (s.store.load width (s.get base + BitVec.ofInt 32 offset)).1
        (s.store.load width (s.get base + BitVec.ofInt 32 offset)).2 := by
  simp only [Instr.effect, Environment.backing, immediate, BitVec.ofInt_toInt]

theorem effect_store :
    (Instr.store width rs base (.immediate (BitVec.ofInt 32 offset))).effect (E.backing immediate)
      s.store s.get =
        .next (s.store.save width (s.get base + BitVec.ofInt 32 offset) (s.get rs)) := by
  simp only [Instr.effect, Environment.backing, immediate, BitVec.ofInt_toInt]

theorem passes_load (E : Environment World) (text : List Line) (width : Width) (rd : Register)
    (hsame : Same s s') (hbase : base ≠ scratch) (hword : isWord offset = true) :
    let loaded := s.store.load width (s.get base + BitVec.ofInt 32 offset)
    ∃ s'', Passes (E.backing immediate) text (access (.load width rd) base offset) s' s'' ∧
      Same (State.set { s with store := loaded.2 } rd loaded.1) s'' := by
  intro loaded
  obtain ⟨lines, base', offset', s1, hlines, hpasses, hsame1, hfits, haddr, -⟩ :=
    passes_access E text (.load width rd) hsame hbase hword
  rw [hlines]
  refine ⟨_, hpasses.append (Passes.write (if_pos hfits) effect_load), ?_⟩
  rw [haddr, hsame1.store]
  exact (hsame1.withStore _).set rd _

theorem passes_store (E : Environment World) (text : List Line) (width : Width) (hsame : Same s s')
    (hrs : rs ≠ scratch) (hbase : base ≠ scratch) (hword : isWord offset = true) :
    ∃ s'', Passes (E.backing immediate) text (access (.store width rs) base offset) s' s'' ∧
      Same { s with
        store := s.store.save width (s.get base + BitVec.ofInt 32 offset) (s.get rs) } s'' := by
  obtain ⟨lines, base', offset', s1, hlines, hpasses, hsame1, hfits, haddr, -⟩ :=
    passes_access E text (.store width rs) hsame hbase hword
  rw [hlines]
  refine ⟨_, hpasses.append (Passes.next (if_pos hfits) effect_store), ?_⟩
  rw [haddr, hsame1.store, hsame1.get rs hrs]
  exact hsame1.withStore _

theorem passes_store_small (E : Environment World) (text : List Line) (s : State (Store World))
    (width : Width) (rs base : Register) (hfits : fitsImmediate offset = true) :
    Passes (E.backing immediate) text (access (.store width rs) base offset) s
      { s with store := s.store.save width (s.get base + BitVec.ofInt 32 offset) (s.get rs) } := by
  rw [access, if_pos hfits]
  exact Passes.next (if_pos hfits) effect_store

/-! ## Entering and leaving -/

theorem passes_saveAll (E : Environment World) (text : List Line) (hsame : Same s s')
    (hsaved : ∀ p ∈ saved, p.1 ≠ Physical.scratch ∧ isWord p.2 = true) :
    ∃ s'', Passes (E.backing immediate) text
        (saved.flatMap fun (p, offset) => access (.store .word (.physical p)) .sp offset) s' s'' ∧
      Same (saveAll s saved) s'' := by
  induction saved generalizing s s' with
  | nil => exact ⟨s', Passes.nil, hsame⟩
  | cons p saved ih =>
    obtain ⟨hp, hword⟩ := hsaved p (.head _)
    have hp' : Register.physical p.1 ≠ scratch := by simpa [scratch] using hp
    obtain ⟨s1, hpasses, hsame1⟩ := passes_store E text .word hsame hp'
      (show Register.sp ≠ scratch by decide) hword
    rw [BitVec.ofInt_natCast] at hsame1
    obtain ⟨s2, hpasses2, hsame2⟩ := ih hsame1 fun q hq => hsaved q (.tail _ hq)
    exact ⟨s2, hpasses.append hpasses2, hsame2⟩

theorem passes_saveAll_small (hsaved : ∀ p ∈ saved, fitsImmediate p.2 = true) :
    Passes (E.backing immediate) text
      (saved.flatMap fun (p, offset) => access (.store .word (.physical p)) .sp offset) s
      (saveAll s saved) := by
  induction saved generalizing s with
  | nil => exact Passes.nil
  | cons p saved ih =>
    have hpasses := passes_store_small E text s .word (.physical p.1) .sp (hsaved p (.head _))
    rw [BitVec.ofInt_natCast] at hpasses
    exact hpasses.append (ih fun q hq => hsaved q (.tail _ hq))

theorem passes_restoreAll (E : Environment World) (text : List Line) (hsame : Same s s')
    (hsaved : ∀ p ∈ saved, isWord p.2 = true) :
    ∃ s'', Passes (E.backing immediate) text
        (saved.flatMap fun (p, offset) => access (.load .word (.physical p)) .sp offset) s' s'' ∧
      Same (restoreAll s saved) s'' := by
  induction saved generalizing s s' with
  | nil => exact ⟨s', Passes.nil, hsame⟩
  | cons p saved ih =>
    obtain ⟨s1, hpasses, hsame1⟩ := passes_load E text .word (.physical p.1) hsame
      (show Register.sp ≠ scratch by decide) (hsaved p (.head _))
    rw [BitVec.ofInt_natCast] at hsame1
    obtain ⟨s2, hpasses2, hsame2⟩ := ih hsame1 fun q hq => hsaved q (.tail _ hq)
    exact ⟨s2, hpasses.append hpasses2, hsame2⟩

theorem mem_placeSaved {saved : List Physical} (h : p ∈ Machine.placeSaved start saved) :
    p.1 ∈ saved ∧ p.2 + wordSize ≤ start + saved.length * wordSize := by
  induction saved generalizing start with
  | nil => simp [Machine.placeSaved] at h
  | cons q saved ih =>
    simp only [Machine.placeSaved, List.mem_cons] at h
    rcases h with rfl | h
    · refine ⟨.head _, ?_⟩
      simp only [List.length_cons, Nat.add_mul]
      omega
    · obtain ⟨hmem, hle⟩ := ih h
      refine ⟨.tail _ hmem, ?_⟩
      simp only [List.length_cons, Nat.add_mul]
      omega

theorem mem_saved {f : Function} {layout : FrameLayout} (h : f.frameLayout = .ok layout)
    (hp : p ∈ layout.saved) : p.1 ∈ f.frameSaved ∧ p.2 < layout.size := by
  simp only [Function.frameLayout, FrameLayout.compute] at h
  split at h
  · cases h
    obtain ⟨hmem, hle⟩ := mem_placeSaved hp
    refine ⟨hmem, ?_⟩
    have hsize := le_alignTo (alignTo (Machine.placeObjects (f.frame.outgoing * wordSize)
      f.frame.objects.entries.toList).2 wordSize + f.frameSaved.length * wordSize)
      Machine.stackAlignment
    simp only [FrameLayout.exact, wordSize] at hle hsize ⊢
    omega
  · simp at h

variable {f : Function} {layout : FrameLayout}

theorem passes_prologue (E : Environment World) (text : List Line)
    (hlayout : f.frameLayout = .ok layout) (hsize : isWord layout.size = true)
    (hscratch : Physical.scratch ∈ f.saved → layout.size ≤ 2048) (s : State (Store World)) :
    ∃ s', Passes (E.backing immediate) text (prologue layout) s s' ∧ Same (enter layout s) s' := by
  simp only [prologue, enter]
  split
  · exact ⟨s, Passes.nil, Same.refl s⟩
  · simp only [isWord, decide_eq_true_eq] at hsize
    have hsp : ∀ t : State (Store World), t.get .sp + BitVec.ofInt 32 (-(layout.size : Int)) =
        t.get .sp - BitVec.ofNat 32 layout.size := by
      intro t
      rw [BitVec.ofInt_neg, BitVec.ofInt_natCast, BitVec.sub_eq_add_neg]
    have hword : isWord (-(layout.size : Int)) = true := by
      simp only [isWord, decide_eq_true_eq]
      omega
    obtain ⟨s1, hpasses, hsame, hsmall⟩ := passes_addToStack E text .sp (Same.refl s) hword
    rw [hsp] at hsame hsmall
    by_cases hmem : Physical.scratch ∈ f.frameSaved
    · -- the frame is small, so the scratch register keeps its value until it is saved
      have hle : layout.size ≤ 2048 := by
        apply hscratch
        simp only [Function.frameSaved] at hmem
        split at hmem
        · rcases List.mem_cons.mp hmem with h | h
          · exact absurd h (by decide)
          · exact h
        · exact hmem
      obtain rfl := hsmall (by rw [fitsImmediate_iff]; omega)
      refine ⟨_, hpasses.append (passes_saveAll_small fun p hp => ?_), Same.refl _⟩
      have hlt := (mem_saved hlayout hp).2
      rw [fitsImmediate_iff]
      omega
    · obtain ⟨s2, hpasses2, hsame2⟩ := passes_saveAll E text hsame
        fun (p : Physical × Nat) (hp : p ∈ layout.saved) => by
          obtain ⟨hp', hlt⟩ := mem_saved hlayout hp
          refine ⟨fun h => hmem (h ▸ hp'), ?_⟩
          simp only [isWord, decide_eq_true_eq]
          omega
      exact ⟨s2, hpasses.append hpasses2, hsame2⟩

theorem returned_epilogue (E : Environment World) (text : List Line)
    (hlayout : f.frameLayout = .ok layout) (hsize : isWord layout.size = true)
    (hsame : Same s s') (rest : List Line) :
    ∃ s'', runLines (E.backing immediate) text (epilogue layout ++ rest) s' = .returned s'' ∧
      Same (leave layout s) s'' := by
  simp only [epilogue, leave]
  split
  · exact ⟨s', rfl, hsame⟩
  · obtain ⟨s1, hpasses1, hsame1⟩ := passes_restoreAll E text hsame
      fun (p : Physical × Nat) (hp : p ∈ layout.saved) => by
        have hlt := (mem_saved hlayout hp).2
        simp only [isWord, decide_eq_true_eq] at hsize ⊢
        omega
    obtain ⟨s2, hpasses2, hsame2, -⟩ := passes_addToStack E text .sp hsame1 hsize
    rw [BitVec.ofInt_natCast] at hsame2
    refine ⟨s2, ?_, hsame2⟩
    rw [List.append_assoc, hpasses1.append hpasses2]
    rfl

/-! ## Instructions -/

/-- The two runs have got to the same place.  `P` says which label stands for a
block, and `leaving` what a return still does. -/
def Agree (P : BlockId → String → List Line → Prop)
    (leaving : State (Store World) → State (Store World)) :
    Outcome (Store World) → Stop (Store World) → Prop
  | .at b s, .at name rest s' => P b name rest ∧ Same s s'
  | .returned _ s, .returned s' => Same (leaving s) s'
  | .halted reason s, .halted reason' s' => reason' = reason ∧ Same s s'
  | _, _ => False

/-- The offset that an instruction names. -/
def Instr.offset? : Instr → Option Offset
  | .slotAddress _ slot => some (.slot slot)
  | .load _ _ _ offset | .store _ _ _ offset => some offset
  | _ => none

/-- What an instruction must be like to be printed: it leaves the scratch register
to the printer, and its offset is a number of a word. -/
structure PrintableInstr (layout : FrameLayout) (i : Instr) : Prop where
  operands : ∀ p ∈ i.operands, p.1 ≠ scratch
  offset : ∀ o ∈ Instr.offset? i, ∀ value ∈ (layout.resolve o).toOption, isWord value = true

instance (layout : FrameLayout) (i : Instr) : Decidable (PrintableInstr layout i) :=
  decidable_of_iff ((∀ p ∈ i.operands, p.1 ≠ scratch) ∧
      ∀ o ∈ Instr.offset? i, ∀ value ∈ (layout.resolve o).toOption, isWord value = true)
    ⟨fun h => ⟨h.1, h.2⟩, fun h => ⟨h.operands, h.offset⟩⟩

variable {P : BlockId → String → List Line → Prop}
  {leaving : State (Store World) → State (Store World)} {rest : List Line}

theorem agree_line (i' : Instr) (hsame : Same s s') (hline : line.instr? = some i')
    (hterm : i.isTerminator = false)
    (heffect : i'.effect (E.backing immediate) s'.store s'.get = i.effect B s.store s.get)
    (hrest : ∀ t t', Same t t' → Agree P leaving (runCode B code t)
      (runLines (E.backing immediate) text rest t')) :
    Agree P leaving (runCode B (i :: code) s)
      (runLines (E.backing immediate) text (line :: rest) s') := by
  have hfits := Instr.effect_fits B s.store s.get i
  rw [runCode, runLines_instr hline, heffect]
  cases heq : i.effect B s.store s.get with
  | next store => exact hrest _ _ (hsame.withStore store)
  | write rd value store => exact hrest _ _ ((hsame.withStore store).set rd value)
  | clobber after store => exact hrest _ _ ((hsame.withStore store).clobber after)
  | goto target =>
    rw [heq] at hfits
    exact absurd hfits.1 (by simp [hterm])
  | ret value =>
    rw [heq] at hfits
    obtain rfl : i = .ret value := hfits
    simp [Instr.isTerminator] at hterm
  | halt reason store => exact ⟨rfl, hsame.withStore store⟩

theorem call_same (hsame : Same s s') (symbol : String) :
    s'.store.call E symbol (fun p => s'.get (.physical p)) =
      s.store.call E symbol (fun p => s.get (.physical p)) := by
  have hregs : (fun p => if p = Physical.scratch then 0 else s'.get (.physical p)) =
      fun p => if p = Physical.scratch then 0 else s.get (.physical p) := by
    funext p
    split
    · rfl
    · rename_i hp
      exact hsame.get _ (by simpa [scratch] using hp)
  simp only [Store.call, hregs, hsame.store]

/-- **The lines of an instruction do what the instruction does**, and then the
rest of the block is run. -/
theorem agree_instr {next : Option BlockId} (hlines : instrLines f layout next i = .ok lines)
    (hterm : i.isTerminator = false) (hi : PrintableInstr layout i)
    (hcomment : ∀ t, i = .comment t → Text.IsLine t) (hsame : Same s s')
    (hrest : ∀ t t', Same t t' → Agree P leaving (runCode (E.backing layout.resolve) code t)
      (runLines (E.backing immediate) text rest t')) :
    Agree P leaving (runCode (E.backing layout.resolve) (i :: code) s)
      (runLines (E.backing immediate) text (lines ++ rest) s') := by
  cases i with
  | li rd value =>
    cases hlines
    refine agree_line _ hsame (Line.instr?_li (isWord_toInt value) rd) rfl ?_ hrest
    simp only [Instr.effect, BitVec.ofInt_toInt, hsame.store]
  | la rd symbol =>
    cases hlines
    refine agree_line (.la rd symbol) hsame rfl rfl ?_ hrest
    simp only [Instr.effect, Environment.backing, hsame.store]
  | mv rd rs =>
    cases hlines
    refine agree_line (.mv rd rs) hsame rfl rfl ?_ hrest
    simp only [Instr.effect, hsame.store,
      hsame.get rs (hi.operands (rs, .use) (by simp [Instr.operands]))]
  | alu op rd rs1 rs2 =>
    cases hlines
    refine agree_line (.alu op rd rs1 rs2) hsame rfl rfl ?_ hrest
    simp only [Instr.effect, hsame.store,
      hsame.get rs1 (hi.operands (rs1, .use) (by simp [Instr.operands])),
      hsame.get rs2 (hi.operands (rs2, .use) (by simp [Instr.operands]))]
  | aluImm op rd rs1 value =>
    cases hlines
    refine agree_line (.aluImm op rd rs1 (BitVec.ofInt 32 value.toInt)) hsame
      (if_pos (isWord_toInt value)) rfl ?_ hrest
    simp only [Instr.effect, BitVec.ofInt_toInt, hsame.store,
      hsame.get rs1 (hi.operands (rs1, .use) (by simp [Instr.operands]))]
  | call symbol arguments =>
    cases hlines
    refine agree_line (.call symbol 0) hsame rfl rfl ?_ hrest
    simp only [Instr.effect, Environment.backing, call_same hsame]
  | comment text' =>
    cases hlines
    refine agree_line (.comment "") hsame (if_pos (hcomment text' rfl)) rfl ?_ hrest
    simp only [Instr.effect, hsame.store]
  | slotAddress rd slot =>
    obtain ⟨value, hvalue, rfl⟩ := Except.bind_pure_eq_ok.mp hlines
    obtain ⟨s1, hpasses, hsame1, -⟩ :=
      passes_addToStack E text rd hsame (hi.offset _ rfl value (by rw [hvalue]; rfl))
    rw [hpasses, runCode]
    simp only [Instr.effect, Environment.backing, hvalue]
    exact hrest _ _ hsame1
  | load width rd base offset =>
    obtain ⟨value, hvalue, rfl⟩ := Except.bind_pure_eq_ok.mp hlines
    obtain ⟨s1, hpasses, hsame1⟩ := passes_load E text width rd hsame
      (hi.operands (base, .use) (by simp [Instr.operands]))
        (hi.offset _ rfl value (by rw [hvalue]; rfl))
    rw [hpasses, runCode]
    simp only [Instr.effect, Environment.backing, hvalue]
    exact hrest _ _ hsame1
  | store width rs base offset =>
    obtain ⟨value, hvalue, rfl⟩ := Except.bind_pure_eq_ok.mp hlines
    obtain ⟨s1, hpasses, hsame1⟩ := passes_store E text width hsame
      (hi.operands (rs, .use) (by simp [Instr.operands]))
      (hi.operands (base, .use) (by simp [Instr.operands]))
        (hi.offset _ rfl value (by rw [hvalue]; rfl))
    rw [hpasses, runCode]
    simp only [Instr.effect, Environment.backing, hvalue]
    exact hrest _ _ hsame1
  | jump target => simp [Instr.isTerminator] at hterm
  | branch condition positive negative => simp [Instr.isTerminator] at hterm
  | ret value => simp [Instr.isTerminator] at hterm

end

end MxStar.Assembly
