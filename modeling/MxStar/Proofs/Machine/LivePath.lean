import MxStar.Proofs.Machine.LiveSolution
import MxStar.Proofs.Machine.Run

/-!
# Live sets and paths

A register is live at a point of the code if its present value may still be read: if some path
from there comes to an instruction that reads the register, past none that writes it
(`Function.LiveAt`).  The live sets that are computed hold exactly these registers
(`Liveness.exists_compute_iff_liveAt`).

One half is an induction along the path, from its end backwards, over the equations of liveness.
The other half needs the live sets to be the least ones that satisfy the equations: the
registers that are live in the sense of paths satisfy them too.

The queue of blocks is emptied on the way (`Liveness.Drains`), so the bound on the number of
visits never cuts the computation short.
-/

namespace MxStar.Machine

/-! ## Paths -/

/-- A place in the code of a function: an instruction by its block and its position there. -/
structure Point where
  block : BlockId
  position : Nat
deriving DecidableEq, Repr

namespace Function

def instr? (f : Function) (p : Point) : Option Instr :=
  (f.blocks.get? p.block).bind fun block => block.code[p.position]?

/-- Control can go from the one point to the other: behind a terminator to the start of a target,
behind any other instruction to the next one. -/
inductive Follows (f : Function) : Point → Point → Prop
  | next {p : Point} {i : Instr} (hi : f.instr? p = some i) (h : i.isTerminator = false) :
      Follows f p ⟨p.block, p.position + 1⟩
  | jump {p : Point} {i : Instr} {target : BlockId} (hi : f.instr? p = some i)
      (h : i.isTerminator = true) (htarget : target ∈ i.targets) : Follows f p ⟨target, 0⟩

/-- A path from one point to another, with the instructions it passes on the way; the one it
comes to is not among them. -/
inductive Path (f : Function) : Point → List Instr → Point → Prop
  | nil (p : Point) : Path f p [] p
  | cons {p q e : Point} {i : Instr} {passed : List Instr} (hi : f.instr? p = some i)
      (h : f.Follows p q) (rest : Path f q passed e) : Path f p (i :: passed) e

/-- Some path from the point comes to an instruction that reads the register, past none that
writes it. -/
def LiveAt (f : Function) (p : Point) (r : Register) : Prop :=
  ∃ passed e i, f.Path p passed e ∧ f.instr? e = some i ∧ r ∈ i.uses ∧ ∀ j ∈ passed, r ∉ j.defs

variable {f : Function} {p q : Point} {r : Register} {i : Instr}

theorem LiveAt.of_uses (hi : f.instr? p = some i) (hr : r ∈ i.uses) : f.LiveAt p r :=
  ⟨[], p, i, .nil p, hi, hr, by simp⟩

theorem LiveAt.of_follows (h : f.LiveAt q r) (hi : f.instr? p = some i) (hr : r ∉ i.defs)
    (hpq : f.Follows p q) : f.LiveAt p r := by
  obtain ⟨passed, e, j, hpath, hj, huses, hpassed⟩ := h
  refine ⟨i :: passed, e, j, .cons hi hpq hpath, hj, huses, ?_⟩
  simpa using ⟨hr, hpassed⟩

theorem LiveAt.induction {P : Point → Prop} (h : f.LiveAt p r)
    (huses : ∀ p i, f.instr? p = some i → r ∈ i.uses → P p)
    (hfollows : ∀ p q i, f.instr? p = some i → r ∉ i.defs → f.Follows p q → P q → P p) : P p := by
  obtain ⟨passed, e, i, hpath, hi, hr, hpassed⟩ := h
  induction hpath with
  | nil e => exact huses e i hi hr
  | cons hj hpq _ ih =>
    have hrest := ih hi fun j hj => hpassed j (.tail _ hj)
    exact hfollows _ _ _ hj (hpassed _ (.head _)) hpq hrest

/-! ## Points of a block -/

variable {b : BlockId} {block : Block} {n : Nat}

theorem instr?_eq (hb : f.blocks.get? b = some block) : f.instr? ⟨b, n⟩ = block.code[n]? := by
  simp [instr?, hb]

theorem exists_drop_of_instr? (hi : f.instr? p = some i) :
    ∃ block, f.blocks.get? p.block = some block ∧
      block.code.drop p.position = i :: block.code.drop (p.position + 1) := by
  obtain ⟨block, hb, hi⟩ := Option.bind_eq_some_iff.mp hi
  obtain ⟨hlt, rfl⟩ := List.getElem?_eq_some_iff.mp hi
  exact ⟨block, hb, List.drop_eq_getElem_cons hlt⟩

theorem terminator?_of_instr? (hlast : f.TerminatorsLast) (hb : f.blocks.get? b = some block)
    (hi : f.instr? ⟨b, n⟩ = some i) (hterm : i.isTerminator = true) :
    block.terminator? = some i ∧ block.code.drop (n + 1) = [] := by
  obtain ⟨block', hb', hdrop⟩ := exists_drop_of_instr? hi
  obtain rfl : block = block' := Option.mem_unique hb hb'
  have hsuffix : ∀ (code : List Instr) (m : Nat), TerminatorLast code →
    TerminatorLast (code.drop m) := by
    intro code m h
    induction m generalizing code with
    | zero => exact h
    | succ m ih =>
      cases code with
      | nil => exact h
      | cons j rest => exact ih rest h.2
  have hrest : block.code.drop (n + 1) = [] := by
    have hleft := hsuffix block.code n (hlast.of_get? hb)
    rw [hdrop] at hleft
    exact hleft.1 hterm
  refine ⟨?_, hrest⟩
  have hgetLast : block.code.getLast? = some i := by
    rw [← List.take_append_drop n block.code, hdrop, hrest, List.getLast?_append]
    simp
  simp [Block.terminator?, hgetLast, hterm]

/-! ## Edges -/

/-- Control goes from the one point to the other along the blocks and the edges between them:
behind an instruction to the next one of its block, behind the last one to the start of a target.
A terminator that is not the last instruction is passed like any other one. -/
inductive Leads (f : Function) : Point → Point → Prop
  | within {b : BlockId} {block : Block} {n : Nat} (hb : f.blocks.get? b = some block)
      (hn : n + 1 < block.code.length) : Leads f ⟨b, n⟩ ⟨b, n + 1⟩
  | across {b target : BlockId} {block : Block} {n : Nat} (hb : f.blocks.get? b = some block)
      (hn : n + 1 = block.code.length) (htarget : target ∈ block.targets) :
      Leads f ⟨b, n⟩ ⟨target, 0⟩

/-- Some path along the edges comes from the point to an instruction that reads the register, past
none that writes it. -/
inductive LiveFrom (f : Function) (r : Register) : Point → Prop
  | read {p : Point} {i : Instr} (hi : f.instr? p = some i) (hr : r ∈ i.uses) : LiveFrom f r p
  | pass {p q : Point} {i : Instr} (hi : f.instr? p = some i) (hr : r ∉ i.defs)
      (hpq : f.Leads p q) (rest : LiveFrom f r q) : LiveFrom f r p

/-- The register is live immediately after the instruction at the point. -/
def LiveAfter (f : Function) (p : Point) (r : Register) : Prop :=
  ∃ q, f.Leads p q ∧ f.LiveFrom r q

theorem LiveFrom.exists_instr? (h : f.LiveFrom r p) : ∃ i, f.instr? p = some i := by
  cases h with
  | read hi _ => exact ⟨_, hi⟩
  | pass hi _ _ _ => exact ⟨_, hi⟩

variable (hlast : f.TerminatorsLast)
include hlast

theorem leads_iff_follows (hq : ∃ i, f.instr? q = some i) : f.Leads p q ↔ f.Follows p q := by
  constructor
  · rintro (⟨hb, hn⟩ | ⟨hb, hn, htarget⟩)
    · have hi := (instr?_eq hb).trans (List.getElem?_eq_getElem (Nat.lt_of_succ_lt hn))
      refine .next hi ?_
      by_contra hterm
      have hnil := (terminator?_of_instr? hlast hb hi (by simpa using hterm)).2
      rw [List.drop_eq_nil_iff] at hnil
      omega
    · rename_i b target block n
      have hi := (instr?_eq hb).trans (List.getElem?_eq_getElem (show n < _ by omega))
      have hgetLast : block.code.getLast? = some (block.code[n]) := by
        rw [List.getLast?_eq_getElem?, show block.code.length - 1 = n by omega,
          List.getElem?_eq_getElem]
      -- a block that goes somewhere ends in a terminator
      have hterm : block.code[n].isTerminator = true := by
        by_contra hterm
        simp [Block.targets, Block.terminator?, hgetLast, Option.filter, hterm] at htarget
      refine .jump hi hterm ?_
      simpa [Block.targets, Block.terminator?, hgetLast, Option.filter, hterm] using htarget
  · rintro (⟨hi, hterm⟩ | ⟨hi, hterm, htarget⟩)
    · obtain ⟨i, hq⟩ := hq
      obtain ⟨block, hb, hq⟩ := Option.bind_eq_some_iff.mp hq
      exact .within hb (List.getElem?_eq_some_iff.mp hq).1
    · obtain ⟨block, hb, hat⟩ := Option.bind_eq_some_iff.mp hi
      obtain ⟨hterminator, hnil⟩ := terminator?_of_instr? hlast hb hi hterm
      have hlt := (List.getElem?_eq_some_iff.mp hat).1
      rw [List.drop_eq_nil_iff] at hnil
      exact .across hb (by omega) (by simpa [Block.targets, hterminator] using htarget)

theorem liveAt_iff_liveFrom : f.LiveAt p r ↔ f.LiveFrom r p := by
  constructor
  · intro h
    refine h.induction (fun p i hi hr => .read hi hr) fun p q i hi hr hpq hq => ?_
    exact .pass hi hr ((leads_iff_follows hlast hq.exists_instr?).mpr hpq) hq
  · intro h
    induction h with
    | read hi hr => exact .of_uses hi hr
    | pass hi hr hpq hq ih =>
      exact ih.of_follows hi hr ((leads_iff_follows hlast hq.exists_instr?).mp hpq)

theorem liveAfter_iff_liveAt : f.LiveAfter p r ↔ ∃ q, f.Follows p q ∧ f.LiveAt q r := by
  refine exists_congr fun q => ?_
  rw [liveAt_iff_liveFrom hlast]
  exact and_congr_left fun hq => leads_iff_follows hlast hq.exists_instr?

end Function

/-! ## The computed sets -/

variable {f : Function} {l : Liveness} {r : Register} {b : BlockId}

/-- **Registers that are live along a path are in the sets**: what is left of the block from the
point on makes them live. -/
theorem exists_mem_liveBefore_of_liveFrom (hl : LiveSolution f l) (h : f.LiveFrom r p) :
    ∃ block, f.blocks.get? p.block = some block ∧
      r ∈ liveBefore (block.code.drop p.position) (l.block p.block).liveOut := by
  induction h with
  | read hi hr =>
    obtain ⟨block, hb, hdrop⟩ := Function.exists_drop_of_instr? hi
    refine ⟨block, hb, ?_⟩
    rw [hdrop]
    exact (Instr.mem_liveBefore _ _ r).mpr (.inl hr)
  | @pass p q i hi hr hpq _ ih =>
    obtain ⟨next, hnext, hq⟩ := ih
    obtain ⟨block, hb, hdrop⟩ := Function.exists_drop_of_instr? hi
    refine ⟨block, hb, ?_⟩
    rw [hdrop]
    refine (Instr.mem_liveBefore i _ r).mpr (.inr ⟨?_, hr⟩)
    cases hpq with
    | within hb' hn =>
      obtain rfl : block = next := Option.mem_unique hb hnext
      exact hq
    | @across b target block' n hb' hn htarget =>
      obtain rfl : block' = block := Option.mem_unique hb' hb
      show r ∈ liveBefore (block'.code.drop (n + 1)) _
      rw [List.drop_eq_nil_of_le hn.ge]
      exact (hl.mem_liveOut hb r).mpr ⟨target, htarget, (hl.mem_liveIn hnext r).mpr hq⟩

/-- Code makes a register live at a point if the register is live along a path from there,
provided that this is so behind the last instruction of the block. -/
theorem liveFrom_of_mem_liveBefore {b : BlockId} {block : Block} (hb : f.blocks.get? b = some block)
    {r : Register} (hout : r ∈ out → ∃ target ∈ block.targets, f.LiveFrom r ⟨target, 0⟩)
    (hn : n < block.code.length) (hr : r ∈ liveBefore (block.code.drop n) out) :
    f.LiveFrom r ⟨b, n⟩ := by
  have hi := (Function.instr?_eq hb).trans (List.getElem?_eq_getElem hn)
  rw [List.drop_eq_getElem_cons hn] at hr
  rcases (Instr.mem_liveBefore _ _ r).mp hr with huses | ⟨hrest, hdefs⟩
  · exact .read hi huses
  by_cases hend : n + 1 < block.code.length
  · exact .pass hi hdefs (.within hb hend) (liveFrom_of_mem_liveBefore hb hout hend hrest)
  · change r ∈ liveBefore (block.code.drop (n + 1)) out at hrest
    rw [List.drop_eq_nil_of_le (by omega)] at hrest
    obtain ⟨target, htarget, hlive⟩ := hout hrest
    exact .pass hi hdefs (.across hb (by omega) htarget) hlive
termination_by block.code.length - n

section

variable (h : Liveness.compute f = .ok l)
include h

theorem liveFrom_of_mem_liveIn (hr : r ∈ (l.block b).liveIn) : f.LiveFrom r ⟨b, 0⟩ := by
  refine within_of_compute h (S := fun b r => f.LiveFrom r ⟨b, 0⟩) ?_ hr
  intro b block hb out hout r hr
  have hpos : 0 < block.code.length := by
    by_contra hempty
    obtain hnil : block.code = [] := List.eq_nil_of_length_eq_zero (by omega)
    -- a block without code goes nowhere
    have hmem : r ∈ out := by simpa [hnil, liveBefore] using hr
    obtain ⟨target, htarget, -⟩ := hout r hmem
    simp [Block.targets, Block.terminator?, hnil] at htarget
  exact liveFrom_of_mem_liveBefore hb (hout r) hpos hr

/-- **What is live behind an instruction** of a block, in the sets and along paths. -/
theorem mem_liveBefore_iff_liveAfter {block : Block} (hb : f.blocks.get? b = some block)
    (hn : n < block.code.length) :
    r ∈ liveBefore (block.code.drop (n + 1)) (l.block b).liveOut ↔ f.LiveAfter ⟨b, n⟩ r := by
  have hl := liveSolution_of_compute h
  have hout : r ∈ (l.block b).liveOut → ∃ target ∈ block.targets, f.LiveFrom r ⟨target, 0⟩ := by
    intro hr
    obtain ⟨target, htarget, hr⟩ := (hl.mem_liveOut hb r).mp hr
    exact ⟨target, htarget, liveFrom_of_mem_liveIn h hr⟩
  constructor
  · intro hr
    by_cases hend : n + 1 < block.code.length
    · exact ⟨_, .within hb hend, liveFrom_of_mem_liveBefore hb hout hend hr⟩
    · rw [List.drop_eq_nil_of_le (by omega)] at hr
      obtain ⟨target, htarget, hlive⟩ := hout hr
      exact ⟨_, .across hb (by omega) htarget, hlive⟩
  · rintro ⟨q, hpq, hq⟩
    obtain ⟨next, hnext, hr⟩ := exists_mem_liveBefore_of_liveFrom hl hq
    cases hpq with
    | within hb' hn =>
      obtain rfl : block = next := Option.mem_unique hb hnext
      exact hr
    | across hb' hend htarget =>
      obtain rfl := Option.mem_unique hb' hb
      rw [List.drop_eq_nil_of_le hend.ge]
      exact (hl.mem_liveOut hb r).mpr ⟨_, htarget, (hl.mem_liveIn hnext r).mpr hr⟩

theorem mem_liveIn_iff_liveAt (hlast : f.TerminatorsLast) {block : Block}
    (hb : f.blocks.get? b = some block) : r ∈ (l.block b).liveIn ↔ f.LiveAt ⟨b, 0⟩ r := by
  rw [Function.liveAt_iff_liveFrom hlast]
  refine ⟨liveFrom_of_mem_liveIn h, fun hlive => ?_⟩
  have hl := liveSolution_of_compute h
  obtain ⟨block', hb', hr⟩ := exists_mem_liveBefore_of_liveFrom hl hlive
  obtain rfl : block = block' := Option.mem_unique hb hb'
  exact (hl.mem_liveIn hb r).mpr hr

end

/-! ## The equations -/

/-- Live sets that satisfy the two equations of liveness. -/
structure Liveness.Solves (l : Liveness) (f : Function) : Prop where
  liveIn : ∀ {b block}, f.blocks.get? b = some block → ∀ r,
    r ∈ (l.block b).liveIn ↔ r ∈ block.uses ∨ r ∈ (l.block b).liveOut ∧ r ∉ block.defs
  liveOut : ∀ {b block}, f.blocks.get? b = some block → ∀ r,
    r ∈ (l.block b).liveOut ↔ ∃ target ∈ block.targets, r ∈ (l.block target).liveIn

theorem Liveness.solves_of_compute (h : compute f = .ok l) : l.Solves f := by
  have hl := liveSolution_of_compute h
  refine ⟨fun {b block} hb r => ?_, hl.mem_liveOut⟩
  rw [hl.mem_liveIn hb, mem_liveBefore_iff, ← Block.mem_defs]
  rfl

theorem Liveness.Solves.mem_liveIn_of_compute {other : Liveness} (hother : other.Solves f)
    (h : compute f = .ok l) (hr : r ∈ (l.block b).liveIn) : r ∈ (other.block b).liveIn := by
  refine within_of_compute h (S := fun b r => r ∈ (other.block b).liveIn) ?_ hr
  intro b block hb out hout r hr
  rw [mem_liveBefore_iff, ← Block.mem_defs] at hr
  refine (hother.liveIn hb r).mpr (hr.imp_right fun ⟨hmem, hdefs⟩ => ⟨?_, hdefs⟩)
  exact (hother.liveOut hb r).mpr (hout r hmem)

/-! ## The queue -/

namespace Liveness

/-- Visits that empty the queue: the live sets before the first of them and after the last. -/
inductive Drains (edges : Table .machineBlock Edges) : List BlockId → Liveness → Liveness → Prop
  | empty (l : Liveness) : Drains edges [] l l
  /-- The live-in set of the block stays the same -/
  | same {b : BlockId} {queue : List BlockId} {l last : Liveness}
      (h : ((l.visit b ((edges.get? b).getD {}).successors.toList).block b).liveIn =
        (l.block b).liveIn)
      (rest : Drains edges queue (l.visit b ((edges.get? b).getD {}).successors.toList) last) :
      Drains edges (b :: queue) l last
  /-- It changes, and the blocks that go to the visited one are queued again -/
  | changed {b : BlockId} {queue : List BlockId} {l last : Liveness}
      (h : ((l.visit b ((edges.get? b).getD {}).successors.toList).block b).liveIn ≠
        (l.block b).liveIn)
      (rest : Drains edges (enqueue queue ((edges.get? b).getD {}).predecessors.toList)
        (l.visit b ((edges.get? b).getD {}).successors.toList) last) :
      Drains edges (b :: queue) l last

/-- **The visits end**: there are as many as are needed to empty the queue. -/
theorem drains_solve {edges : Table .machineBlock Edges} (hedges : f.edges = .ok edges)
    (fuel : Nat) (queue : List BlockId) (l : Liveness) (P : Progress f queue l)
    (hfuel : visitsLeft f queue l ≤ fuel) : Drains edges queue l (solve edges fuel queue l) := by
  induction fuel generalizing queue l with
  | zero =>
    obtain rfl : queue = [] := by
      apply List.eq_nil_of_length_eq_zero
      simp only [visitsLeft] at hfuel
      omega
    exact .empty l
  | succ fuel ih =>
    cases queue with
    | nil => exact .empty l
    | cons b queue =>
      have hprogress := P.step hedges
      have hlt := P.visitsLeft_lt hedges
      simp only [solve]
      split
      · rename_i hsame
        simp only [hsame, if_true] at hprogress hlt
        exact .same hsame (ih queue _ hprogress (by omega))
      · rename_i hchanged
        simp only [hchanged, if_false] at hprogress hlt
        exact .changed hchanged (ih _ _ hprogress (by omega))

/-- **Liveness is exact.**  If all targets and the exit exist and terminators stand last, the
visits empty the queue and leave sets in which a register is live at the start of a block just if
some path from there reads it before any instruction writes it, and live at the end just if it is
live at the start of a target.  These sets satisfy the equations of liveness, and of all sets that
do they are the least, whether the exit can be reached from a block or not. -/
theorem exists_compute_iff_liveAt {f : Function} (hexit : f.exit.val < f.blocks.size)
    (htargets : ∀ block ∈ f.blocks.entries.toList,
      ∀ target ∈ block.targets, target.val < f.blocks.size)
    (hlast : f.TerminatorsLast) :
    ∃ edges l, f.edges = .ok edges ∧ compute f = .ok l ∧ Drains edges (startQueue f) (start f) l ∧
      (∀ b block, f.blocks.get? b = some block → ∀ r,
        (r ∈ (l.block b).liveIn ↔ f.LiveAt ⟨b, 0⟩ r) ∧
        (r ∈ (l.block b).liveOut ↔ ∃ target ∈ block.targets, r ∈ (l.block target).liveIn)) ∧
      l.Solves f ∧
      ∀ other : Liveness, other.Solves f → ∀ b block, f.blocks.get? b = some block → ∀ r,
        (r ∈ (l.block b).liveIn → r ∈ (other.block b).liveIn) ∧
        (r ∈ (l.block b).liveOut → r ∈ (other.block b).liveOut) := by
  obtain ⟨edges, hedges⟩ : ∃ edges, f.edges = .ok edges := by
    refine ⟨_, if_pos ?_⟩
    simp only [List.all_eq_true, decide_eq_true_eq, Prod.forall]
    intro b target hedge
    obtain ⟨block, hb, htarget⟩ := Function.mem_edgeList.mp hedge
    exact htargets block (Array.mem_toList_iff.mpr (Array.mem_of_getElem? hb)) target htarget
  have hcompute : compute f = .ok (solve edges (visitBound f) (startQueue f) (start f)) := by
    simp only [compute, hedges, bind, Except.bind, if_pos hexit]
    rfl
  have hsolves := solves_of_compute hcompute
  refine ⟨edges, _, hedges, hcompute, drains_solve hedges _ _ _ (progress_start hexit)
    (visitsLeft_start_le f hexit), fun b block hb r => ?_, hsolves,
    fun other hother b block hb r => ?_⟩
  · exact ⟨mem_liveIn_iff_liveAt hcompute hlast hb, hsolves.liveOut hb r⟩
  · refine ⟨hother.mem_liveIn_of_compute hcompute, fun hr => ?_⟩
    obtain ⟨target, htarget, hlive⟩ := (hsolves.liveOut hb r).mp hr
    exact (hother.liveOut hb r).mpr ⟨target, htarget, hother.mem_liveIn_of_compute hcompute hlive⟩

/-- A block that goes round for ever, apart from the way to the exit. -/
def spinner : Function where
  name := "spinner"
  blocks := ⟨#[
    { id := ⟨0⟩, label := "entry", code := [.li (.virtual ⟨0⟩) 1, .branch (.virtual ⟨0⟩) ⟨1⟩ ⟨2⟩] },
    { id := ⟨1⟩, label := "spin"
      code := [.alu .add (.virtual ⟨1⟩) (.virtual ⟨0⟩) (.virtual ⟨0⟩), .jump ⟨1⟩] },
    { id := ⟨2⟩, label := "exit", code := [.ret false] }]⟩
  exit := ⟨2⟩
  virtuals := 2

/-- The register that is read on every round is live in the block that never comes to the exit,
and the one that is written there is not. -/
theorem exists_compute_spinner :
    ∃ l, compute spinner = .ok l ∧ .virtual ⟨0⟩ ∈ (l.block ⟨1⟩).liveIn ∧
      .virtual ⟨0⟩ ∈ (l.block ⟨1⟩).liveOut ∧ .virtual ⟨0⟩ ∉ (l.block ⟨2⟩).liveIn := by
  obtain ⟨edges, l, -, hcompute, -, hlive, hsolves, -⟩ := exists_compute_iff_liveAt (f := spinner)
    (by decide) (by decide) (by decide)
  have hspin := hlive ⟨1⟩ _ rfl (.virtual ⟨0⟩)
  have hread : .virtual ⟨0⟩ ∈ (l.block ⟨1⟩).liveIn := hspin.1.mpr (.of_uses rfl (by decide))
  refine ⟨l, hcompute, hread, hspin.2.mpr ⟨⟨1⟩, by decide, hread⟩, fun hr => ?_⟩
  have hend : spinner.blocks.get? ⟨2⟩ =
    some { id := ⟨2⟩, label := "exit", code := [.ret false] } := rfl
  rcases (hsolves.liveIn hend _).mp hr with huses | ⟨hout, -⟩
  · exact absurd (mem_uses_of_mem_liveBefore huses) (by decide)
  · obtain ⟨target, htarget, -⟩ := (hsolves.liveOut hend _).mp hout
    exact absurd htarget List.not_mem_nil

end Liveness

end MxStar.Machine
