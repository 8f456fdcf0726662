import MxStar.Proofs.Flow.Defined
import MxStar.Proofs.Machine.Convergence

/-!
# What is live where a function is entered

In the code selected for a finished graph nothing is live at the start of a block
but values that the graph has there, each in its virtual register.  At the entry
these are the parameters, and the code in front of the entry writes their virtual
registers.  So only argument registers are live where the function is entered, and
no more of them than there are parameters.

The live sets are the least ones, so it is enough to bound them block by block.
-/

namespace MxStar.Machine

open MxStar.Flow (RegisterId)

variable {A : Flow.BlockId → Set RegisterId}

section

variable {sel : Selector} {n n' N : Naming} {known : Set RegisterId} {code : List Instr}
  {out : RegisterSet}

/-- The virtual register of one of the values `known`. -/
def Selector.Holds (sel : Selector) (n : Naming) (known : Set RegisterId) (r : Register) : Prop :=
  Named n (fun q => q ∈ known ∧ sel.slot? q = none) r

variable {r : Register}

theorem Selector.Holds.mono {known' : Set RegisterId} (h : sel.Holds n known r)
    (hsub : ∀ q ∈ known, sel.slot? q = none → q ∈ known') : sel.Holds n known' r :=
  Named.mono h fun q hq => ⟨hsub q hq.1 hq.2, hq.2⟩

theorem Piece.live {used : RegisterId → Prop} (P : Piece u n n' used said ready code)
    (hgrows : n'.Grows N) (hr : r ∈ liveBefore code out) :
    Named N used r ∨ r ∈ out ∧ r ∉ code.flatMap Instr.defs := by
  rcases (mem_liveBefore_iff code out r).mp hr with hr | hr
  · exact .inl ((P.exposed r hr).grows hgrows)
  · exact .inr hr

/-- **Instructions** that read what is known or written before them need only values
that are known. -/
theorem holds_of_mem_selectInstrs (h : sel.selectInstrs instrs n = .ok (code, n'))
    (hgrows : n'.Grows N) (hordered : Flow.Ordered known instrs)
    (hplain : ∀ i ∈ instrs, i.assigned? = i.destination?)
    (hout : ∀ r ∈ out, sel.Holds N (known ∪ {q | q ∈ Flow.written instrs}) r)
    (hr : r ∈ liveBefore code out) : sel.Holds N known r := by
  induction instrs generalizing n code known r with
  | nil =>
    obtain ⟨rfl, rfl⟩ := Select.pure_eq_ok.mp h
    exact (hout r hr).mono fun q hq _ => by simpa [Flow.written] using hq
  | cons i rest ih =>
    obtain ⟨comment, code1, code2, n1, hlisting, hi, hrest, rfl⟩ := selectInstrs_cons_eq_ok h
    have D := defines_selectInstr (u := sel.anyUse) le_rfl (sel.suits_anyUse i) hi
    have C := (piece_comment sel.anyUse n (sel.Reads i.operands) hlisting).1
    have hgrows1 := (grows_selectInstrs hrest).trans hgrows
    rw [liveBefore_append] at hr
    rcases (C.append D.toPiece).live hgrows1 hr with hread | ⟨hlater, hdefs⟩
    · exact Named.mono hread fun q hq => ⟨hordered.1 q hq.1, hq.2⟩
    · -- what the rest needs is known already, or this instruction writes it
      obtain ⟨q, v, ⟨hq, hslot⟩, hv, rfl⟩ := ih hrest hordered.2 (fun j hj => hplain j (.tail _ hj))
        (fun r hr => (hout r hr).mono fun q hq _ => by simpa [or_assoc] using hq) hlater
      rcases hq with hq | hq
      · exact ⟨q, v, ⟨hq, hslot⟩, hv, rfl⟩
      · obtain ⟨w, hw, hwritten⟩ := D.written q ((hplain i (.head _)).trans hq)
        obtain rfl : v = w := Option.some.inj (hv.symm.trans (hgrows1.values q w hw))
        refine absurd ?_ hdefs
        rw [List.flatMap_append]
        exact List.mem_append_right _ hwritten

variable {id : Flow.BlockId}

/-- **A block** needs values only that the graph has at its start. -/
theorem holds_of_mem_selectBlock (hdraft : sel.source.Draft A)
    (hb : sel.source.blocks.get? id = some b) (h : sel.selectBlock id b n = .ok ((place, code), n'))
    (hgrows : n'.Grows N)
    (hout : ∀ r ∈ out, ∃ c ∈ sel.source.targets id, sel.Holds N (sel.source.atStart A c) r)
    (hr : r ∈ liveBefore code out) : sel.Holds N (sel.source.atStart A id) r := by
  obtain ⟨t, body, comment, last, n1, ht, -, hinstrs, hlisting, hlast, rfl⟩ := selectBlock_eq_ok h
  have hends := hdraft.ends id b t hb ht
  have C := (piece_comment sel.anyUse n1 (sel.Reads t.operands) hlisting).1
  have T := ends_selectTerminator (u := sel.anyUse) le_rfl hlast
  have hgrows1 := T.grows.trans hgrows
  rw [List.append_assoc, liveBefore_append] at hr
  refine holds_of_mem_selectInstrs hinstrs hgrows1 (hdraft.ordered id b hb)
    (hdraft.plain id b hb) (fun r hr => ?_) hr
  have hread : Named N (sel.Reads t.operands) r →
      sel.Holds N (sel.source.after A id b.instrs.toList) r := fun hread =>
    Named.mono hread fun q hq => ⟨hends.reads q hq.1, hq.2⟩
  rw [liveBefore_append] at hr
  rcases C.live hgrows1 hr with hr | ⟨hr, -⟩
  · exact hread hr
  · rcases (mem_liveBefore_iff last out r).mp hr with hr | ⟨hr, -⟩
    · exact hread ((T.exposed r hr).grows hgrows)
    · obtain ⟨c, hc, hholds⟩ := hout r hr
      have hvouches := hends.vouches c ((Flow.Function.mem_targets hb ht).mp hc)
      refine hholds.mono fun q hq _ => ?_
      rcases hq with hgiven | hcounted
      · exact .inl (.inl hgiven)
      · exact hvouches hcounted

theorem exists_of_mem_targets (hb : sel.source.blocks.get? id = some b) (hn : n.Sound)
    (h : sel.selectBlock id b n = .ok ((place, code), n')) (hi : i ∈ code) {target : BlockId}
    (htarget : target ∈ i.targets) :
    ∃ c ∈ sel.source.targets id, sel.source.layout[target.val]? = some c := by
  obtain ⟨t, body, comment, last, n1, ht, -, hinstrs, hlisting, hlast, rfl⟩ := selectBlock_eq_ok h
  have W := (written_selectInstrs (u := sel.anyUse) le_rfl
    (fun i _ => sel.suits_anyUse i) hinstrs).1
  have C := (piece_comment sel.anyUse n1 (sel.Reads t.operands) hlisting).1
  rcases List.mem_append.mp hi with hi | hi
  · exact absurd (((W.append C.toWritten).modest hn i hi).targets target htarget)
      (Nat.not_lt_zero _)
  · obtain ⟨c, hc, hplace⟩ :=
      (ends_selectTerminator (u := sel.anyUse) le_rfl hlast).targets i hi target htarget
    exact ⟨c, (Flow.Function.mem_targets hb ht).mpr hc, hplace⟩

end

/-! ## Parameters -/

/-- One of the registers that carry the first `count` arguments. -/
def Register.CarriesArgument (count : Nat) (r : Register) : Prop :=
  ∃ i a, i < min 8 count ∧ Physical.arguments[i]? = some a ∧ r = .physical a

section

variable {parameters : List RegisterId} {code : List Instr} {n N : Naming}

variable (h : parameters.zipIdx.mapM (fun p => Selector.selectParameter p.1 p.2) {} = .ok (code, n))
include h

theorem targets_of_mem_parameters (hi : i ∈ code) : i.targets = [] := by
  obtain ⟨p, -, hreceives⟩ := (forall₂_parameters h).2.exists_of_mem_right hi
  exact hreceives.targets

/-- **Receiving the parameters** needs nothing but argument registers. -/
theorem carriesArgument_of_mem_parameters (hgrows : n.Grows N)
    (hout : ∀ r ∈ out, Named N (· ∈ parameters) r) (hr : r ∈ liveBefore code out) :
    r.CarriesArgument parameters.length := by
  obtain ⟨-, hsteps⟩ := forall₂_parameters h
  rcases (mem_liveBefore_iff code out r).mp hr with hr | ⟨hr, hdefs⟩
  · obtain ⟨i, hi, hr⟩ := List.mem_flatMap.mp (mem_uses_of_mem_liveBefore hr)
    obtain ⟨⟨q, k⟩, hq, hreceives⟩ := hsteps.exists_of_mem_right hi
    obtain ⟨a, ha, rfl⟩ := hreceives.uses r hr
    have hcount : k < Physical.arguments.length := (List.getElem?_eq_some_iff.mp ha).1
    have hk : k < parameters.length := List.snd_lt_of_mem_zipIdx hq
    exact ⟨k, a, lt_min hcount hk, ha, rfl⟩
  · obtain ⟨q, v, hq, hv, rfl⟩ := hout r hr
    obtain ⟨k, hk, rfl⟩ := List.getElem_of_mem hq
    have hget : parameters.zipIdx[k]? = some (parameters[k], k) := by simp [hk]
    obtain ⟨i, hi, hreceives⟩ := hsteps.exists_of_getElem? hget
    obtain ⟨w, hw, hwrites⟩ := hreceives.writes
    obtain rfl : v = w := Option.some.inj (hv.symm.trans (hgrows.values _ w hw))
    refine absurd (List.mem_flatMap.mpr ⟨i, List.mem_of_getElem? hi, ?_⟩) hdefs
    exact Instr.mem_defs.mpr ⟨by simp [hwrites], rfl⟩

end

/-! ## Functions -/

theorem Selector.mem_parameters {sel : Selector} {q : RegisterId} (hq : q ∈ sel.source.given)
    (hslot : sel.slot? q = none) : q ∈ sel.source.parameters := by
  refine (List.mem_append.mp hq).resolve_right fun hcell => ?_
  obtain ⟨c, hc, rfl⟩ := List.mem_map.mp hcell
  obtain ⟨k, hk, hget⟩ := List.getElem_of_mem hc
  simp only [Selector.slot?, Option.map_eq_none_iff, List.find?_eq_none, List.mem_reverse] at hslot
  refine hslot (c, k) ?_ (by simp)
  simp [List.mem_zipIdx_iff_getElem?, List.getElem?_eq_getElem hk, hget]

/-- **Only argument registers are live at the entry** of the code selected for a
finished graph. -/
theorem carriesArgument_of_mem_liveIn {program : Flow.Program} {source : Flow.Function}
    {options : Options} {f : Function} {l : Liveness} (hsource : source.Sound A)
    (h : Function.ofFlow program source options = .ok f) (hl : Liveness.compute f = .ok l)
    {r : Register} (hr : r ∈ (l.block f.entry).liveIn) :
    r.CarriesArgument source.parameters.length := by
  let sel : Selector := { program, source, options }
  obtain ⟨n, N, parameters, hentry, hgrows, hparams, hplaces⟩ :=
    exists_selectBlock_of_ofFlow hsource.wellFormed.nodup h
  -- at the entry argument registers are needed, elsewhere values of the graph
  let S (place : BlockId) (r : Register) : Prop := ∃ id, source.layout[place.val]? = some id ∧
    if f.entry = place then r.CarriesArgument source.parameters.length
    else sel.Holds N (source.atStart A id) r
  have hclosed : ∀ place block, f.blocks.get? place = some block → ∀ out : RegisterSet,
      (∀ r ∈ out, ∃ target ∈ block.targets, S target r) →
        ∀ r ∈ liveBefore block.code out, S place r := by
    intro place block hblock out hout r hr
    obtain ⟨id, b, home, code, m, m', hid, hb, hm, hselect, hgrows', hcode⟩ :=
      hplaces place block hblock
    have htargets : ∀ r ∈ out, ∃ c ∈ source.targets id, sel.Holds N (source.atStart A c) r := by
      intro r hr
      obtain ⟨target, htarget, c, hc, hneeded⟩ := hout r hr
      obtain ⟨i, hi, htarget⟩ := codeTargets_subset htarget
      have hi : i ∈ code := by
        rw [hcode] at hi
        refine (List.mem_append.mp hi).resolve_left fun hi => ?_
        split_ifs at hi
        · simp [targets_of_mem_parameters hparams hi] at htarget
        · simp at hi
      obtain ⟨d, hd, hplace⟩ := exists_of_mem_targets hb hm hselect hi htarget
      obtain rfl : c = d := Option.mem_unique hc hplace
      have hnotEntry : f.entry ≠ target := by
        rintro rfl
        exact hsource.not_mem_targets id (Option.mem_unique hc hentry ▸ hd)
      rw [if_neg hnotEntry] at hneeded
      exact ⟨c, hd, hneeded⟩
    have hblock : ∀ r ∈ liveBefore code out, sel.Holds N (source.atStart A id) r := fun r hr =>
      holds_of_mem_selectBlock hsource.draft hb hselect hgrows' htargets hr
    refine ⟨id, hid, ?_⟩
    rw [hcode] at hr
    split_ifs at hr ⊢ with hplace
    · subst hplace
      obtain rfl : id = source.entry := Option.mem_unique hid hentry
      rw [liveBefore_append] at hr
      refine carriesArgument_of_mem_parameters hparams hgrows (fun r hr => ?_) hr
      refine Named.mono (hblock r hr) fun q hq => sel.mem_parameters ?_ hq.2
      simpa [Flow.Function.atStart, hsource.entry_free] using hq.1
    · exact hblock r hr
  obtain ⟨id, -, hbound⟩ := within_of_compute hl hclosed hr
  simpa using hbound

/-- **No undefined register is read.**  In every function of a lowered unit each
register gets its value in one way, and on every path before it is read.  So in
the code selected for it only the registers that carry its arguments are live at
the entry. -/
theorem Module.defined_of_ofSource {p : Source.Program} {symbols : Source.Symbols}
    {log log' : Log} {program : Flow.Program}
    (h : Flow.Program.ofSource p symbols log = .ok program log') :
    (∀ f ∈ program.allFunctions, f.Defined) ∧
      ∀ (options : Options) (before after : Log) (m : Module),
        Module.ofFlow program options before = .ok m after →
          List.Forall₂ (fun source f => ∃ l, Liveness.compute f = .ok l ∧
            ∀ r ∈ (l.block f.entry).liveIn, r.CarriesArgument source.parameters.length)
            program.allFunctions m.functions := by
  have hsound := Flow.Program.sound_of_ofSource h
  constructor
  · intro f hf
    obtain ⟨A, hf⟩ := hsound f hf
    exact hf.defined
  · intro options before after m hm
    have hselected := Module.forall₂_ofFlow hm
    refine List.forall₂_iff_get.mpr ⟨hselected.length_eq, fun j hj hj' => ?_⟩
    have hflow := (List.forall₂_iff_get.mp hselected).2 j hj hj'
    obtain ⟨A, hsource⟩ := hsound _ (List.get_mem program.allFunctions ⟨j, hj⟩)
    obtain ⟨l, hl⟩ := exists_compute_ofFlow hflow
    exact ⟨l, hl, fun r hr => carriesArgument_of_mem_liveIn hsource hflow hl hr⟩

/-- A loop with a short-circuit condition, a statement that is never reached and a
choice between two values. -/
def guarded : Source.Program :=
  let int : Source.Ty := { base := .int }
  let bool : Source.Ty := { base := .bool }
  let x : Source.Expr := .ident int "x"
  let stop : Source.Expr := .ident bool "stop"
  let number (n : Nat) : Source.Expr := .literal int (.integer (BitVec.ofNat 32 n))
  [.function {
    name := "guarded"
    returnType := int
    parameters := [⟨"x", int⟩, ⟨"stop", bool⟩]
    body := [ .whileLoop (.binary bool .logicalOr stop (.binary bool .lessThan x (number 3)))
        [.breakLoop, .evaluate (.assign int x (.binary int .add x (number 4)))],
      .giveBack (some (.choice int stop (.binary int .add x (number 1)) x))] }]

/-- The loop has eleven blocks, and all the registers they read have values. -/
theorem Module.defined_of_ofSource_guarded :
    ∃ program log m log', Flow.Program.ofSource guarded {} #[] = .ok program log ∧
      Module.ofFlow program {} #[] = .ok m log' ∧
      (∀ f ∈ program.allFunctions, f.layout.length = 11 ∧ f.Defined) ∧
      List.Forall₂ (fun source f => ∃ l, Liveness.compute f = .ok l ∧
        ∀ r ∈ (l.block f.entry).liveIn, r.CarriesArgument source.parameters.length)
        program.allFunctions m.functions ∧ m.functions.length = 1 := by
  have hfacts : (Flow.Program.ofSource guarded {} #[]).passes (fun program =>
      (program.allFunctions.all fun f => f.layout.length == 11) &&
        (Module.ofFlow program {} #[]).passes fun m => m.functions.length == 1) = true := by cbv
  obtain ⟨program, log, hprogram, hfacts⟩ := EStateM.exists_of_passes hfacts
  rw [Bool.and_eq_true, List.all_eq_true] at hfacts
  obtain ⟨m, log', hm, hlength⟩ := EStateM.exists_of_passes hfacts.2
  obtain ⟨hdefined, hlive⟩ := Module.defined_of_ofSource hprogram
  exact ⟨program, log, m, log', hprogram, hm,
    fun f hf => ⟨beq_iff_eq.mp (hfacts.1 f hf), hdefined f hf⟩, hlive {} #[] log' m hm,
    beq_iff_eq.mp hlength⟩

end MxStar.Machine
