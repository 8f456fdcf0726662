import MxStar.Proofs.Flow.Cells

/-!
# Positions in a run

A run that follows an evaluation stops at positions inside of blocks as well as at
their starts.  `Setting.Goes` says that control gets from one position to another,
whatever number of blocks it may still follow, and `Setting.Leads` relates a whole
evaluation to a run: where the evaluation ends the run gets to some position, where
a call does not come back the run hangs, and where the evaluation runs out of fuel
the run has gone through at least as many blocks.

While a body is built, control would stand at the end of the current block
(`Builder.Stands`).  An instruction that is added there is executed there, because
the finished function has grown out of the body.
-/

namespace MxStar.Flow

/-- A place where control can be. -/
inductive Position
  | start (block : BlockId)
  /-- In front of the instruction of the given number -/
  | inside (block : BlockId) (index : Nat)

def Block.skip (b : Block) (index : Nat) : Block :=
  { b with instrs := ⟨b.instrs.toList.drop index⟩ }

namespace Setting

variable {World α β : Type} {r : Source.Result World α}

/-- Follow control from a position through at most `count` more blocks. -/
def proceed (X : Setting World) (count : Nat) : Position → State World → Outcome World
  | .start b, s => X.function.runFrom X.environment X.program count b s
  | .inside b index, s =>
    match X.function.blocks.get? b with
    | some block =>
      match (block.skip index).run X.environment X.program X.function s with
      | .at next s => X.function.runFrom X.environment X.program count next s
      | outcome => outcome
    | none => .stuck

/-- Control gets from one position to another. -/
def Goes (X : Setting World) (n : Nat) (x : Position) (s : State World) (y : Position)
    (s' : State World) : Prop :=
  ∀ count, X.proceed (count + n) x s = X.proceed count y s'

/-- The run follows an evaluation. -/
def Leads (X : Setting World) (fuel : Nat) (x : Position) (s : State World)
    (r : Source.Result World α)
    (goal : α → Source.State World → Position → State World → Prop) : Prop :=
  match r with
  | .done a st => ∃ n y s', X.Goes n x s y s' ∧ goal a st y s'
  | .hung st => ∃ n s', (∀ count, X.proceed (count + n) x s = .hung s') ∧ X.Seen st s'
  | .outOfFuel st => ∃ n ≥ fuel, ∃ b s', X.Goes n x s (.start b) s' ∧ X.Seen st s'
  | .undefined => True

variable {X : Setting World} {x y : Position} {s s' : State World}

theorem Goes.refl : X.Goes 0 x s x s := fun _ => rfl

variable {n : Nat} {b : BlockId} {block : Block}

theorem Goes.trans (h : X.Goes n x s y s') (h' : X.Goes m y s' z s'') :
    X.Goes (m + n) x s z s'' := by
  intro count
  rw [← Nat.add_assoc, h, h']

section

variable (hb : X.function.blocks.get? b = some block)
include hb

theorem goes_start : X.Goes 1 (.start b) s (.inside b 0) s := by
  intro count
  have hskip : block.skip 0 = block := by simp [Block.skip]
  have hblock : X.function.runBlock X.environment X.program b s =
      block.run X.environment X.program X.function s := by simp [Function.runBlock, hb]
  cases hrun : block.run X.environment X.program X.function s <;>
    simp [proceed, hb, hskip, Function.runFrom, hblock, hrun]

section

variable {i : Instr} {index : Nat} (hi : block.instrs.toList[index]? = some i)
include hi

theorem goes_instr (hexec : i.exec X.environment X.program X.function s = .next s') :
    X.Goes 0 (.inside b index) s (.inside b (index + 1)) s' := by
  intro count
  obtain ⟨hlt, hget⟩ := List.getElem?_eq_some_iff.mp hi
  simp only [proceed, hb, Block.run, Block.skip, List.drop_eq_getElem_cons hlt, hget, runInstrs,
    hexec, Nat.add_zero]

theorem hangs_instr (hexec : i.exec X.environment X.program X.function s = .hung s') (count : Nat) :
    X.proceed count (.inside b index) s = .hung s' := by
  obtain ⟨hlt, hget⟩ := List.getElem?_eq_some_iff.mp hi
  simp only [proceed, hb, Block.run, Block.skip, List.drop_eq_getElem_cons hlt, hget, runInstrs,
    hexec]

end

theorem proceed_terminator (ht : block.terminator = some t) (count : Nat) :
    X.proceed count (.inside b block.instrs.size) s =
      match t.exec X.environment s with
      | .at next s => X.proceed count (.start next) s
      | outcome => outcome := by
  have hskip : (block.skip block.instrs.size).instrs.toList = [] := by simp [Block.skip]
  simp only [proceed, hb, Block.run, hskip, runInstrs]
  simp only [Block.skip, ht]

end

/-! ## Following an evaluation -/

variable {fuel : Nat} {goal : α → Source.State World → Position → State World → Prop}
  {goal' : β → Source.State World → Position → State World → Prop}

theorem Leads.weaken (hle : fuel' ≤ fuel) (h : X.Leads fuel x s r goal) :
    X.Leads fuel' x s r goal := by
  cases r with
  | outOfFuel st =>
    obtain ⟨n, hn, b, s', hgoes, hseen⟩ := h
    exact ⟨n, hle.trans hn, b, s', hgoes, hseen⟩
  | _ => exact h

theorem Leads.prepend_add (hgoes : X.Goes n x s y s') (h : X.Leads fuel y s' r goal) :
    X.Leads (fuel + n) x s r goal := by
  cases r with
  | done a st =>
    obtain ⟨m, z, s'', hgoes', hgoal⟩ := h
    exact ⟨m + n, z, s'', hgoes.trans hgoes', hgoal⟩
  | hung st =>
    obtain ⟨m, s'', hhung, hseen⟩ := h
    refine ⟨m + n, s'', fun count => ?_, hseen⟩
    rw [← Nat.add_assoc, hgoes, hhung]
  | outOfFuel st =>
    obtain ⟨m, hm, b, s'', hgoes', hseen⟩ := h
    exact ⟨m + n, by omega, b, s'', hgoes.trans hgoes', hseen⟩
  | undefined => trivial

theorem Leads.prepend (hgoes : X.Goes n x s y s') (h : X.Leads fuel y s' r goal) :
    X.Leads fuel x s r goal :=
  (h.prepend_add hgoes).weaken (Nat.le_add_right _ _)

theorem Leads.bind {k : α → Source.State World → Source.Result World β}
    (h : X.Leads fuel x s r goal)
    (hk : ∀ a st y s', r = .done a st → goal a st y s' → X.Leads fuel y s' (k a st) goal') :
    X.Leads fuel x s (r.bind k) goal' := by
  cases r with
  | done a st =>
    obtain ⟨n, y, s', hgoes, hgoal⟩ := h
    exact (hk a st y s' rfl hgoal).prepend hgoes
  | hung st => exact h
  | outOfFuel st => exact h
  | undefined => trivial

theorem Leads.done (h : goal a st x s) : X.Leads fuel x s (.done a st) goal :=
  ⟨0, x, s, .refl, h⟩

theorem Leads.mono {goal2 : α → Source.State World → Position → State World → Prop}
    (h : X.Leads fuel x s r goal)
    (himp : ∀ a st y s', goal a st y s' → goal2 a st y s') : X.Leads fuel x s r goal2 := by
  cases r with
  | done a st =>
    obtain ⟨n, y, s', hgoes, hgoal⟩ := h
    exact ⟨n, y, s', hgoes, himp a st y s' hgoal⟩
  | hung st => exact h
  | outOfFuel st => exact h
  | undefined => trivial

theorem Leads.goOn {goal2 : α → Source.State World → Position → State World → Prop}
    (h : X.Leads fuel x s r goal)
    (hgoes : ∀ a st y s', goal a st y s' → ∃ n z s'', X.Goes n y s' z s'' ∧ goal2 a st z s'') :
    X.Leads fuel x s r goal2 := by
  cases r with
  | done a st =>
    obtain ⟨n, y, s', hgoes1, hgoal⟩ := h
    obtain ⟨m, z, s'', hgoes2, hgoal2⟩ := hgoes a st y s' hgoal
    exact ⟨m + n, z, s'', hgoes1.trans hgoes2, hgoal2⟩
  | hung st => exact h
  | outOfFuel st => exact h
  | undefined => trivial

end Setting

/-! ## Positions in a body under construction -/

/-- Control would stand at the end of the current block, which is not finished and
whose terminator is `t` so far. -/
def Builder.Stands (s : Builder) (t : Option Terminator) (x : Position) : Prop :=
  ∃ b, s.function.blocks.get? s.current = some b ∧ b.finished = false ∧ b.terminator = t ∧
    x = .inside s.current b.instrs.size

/-- A block is empty and not the current one. -/
def Builder.Waits (s : Builder) (id : BlockId) (t : Option Terminator) : Prop :=
  (∃ label, s.function.blocks.get? id = some { label, terminator := t }) ∧ s.current ≠ id

section

variable {α : Type} {s s' : Builder}

/-- A body after more of it was built, with the same names in scope. -/
structure Builder.Later (s s' : Builder) : Prop where
  edits : Edits 0 s.draft s'.draft
  scopes : s'.scopes = s.scopes

theorem Builder.Later.trans (h : s.Later s') (h' : s'.Later s'') : s.Later s'' :=
  ⟨h.edits.trans h'.edits, h'.scopes.trans h.scopes⟩

theorem Builder.Later.grows (h : s.Later s') : Grows s.function s'.function := h.edits.grows

theorem Builds.later {Q : α → Prop} (hbuilds : Builds False id 0 step texts Q)
    (h : step s = .ok a s') : s.Later s' := by
  obtain ⟨hedits, hscopes, -⟩ := hbuilds h (Nat.zero_le _)
  exact ⟨hedits, hscopes⟩

end

section

variable {α τ : Type} {s s' : Builder} {id : BlockId} {t : Option Terminator} {x : Position}

open Build

section

variable {step : Build α} {a : α} {view : ScopeStack → τ} {texts : List String} {Q : α → Prop}
  (hbuilds : Builds False view s.function.blocks.size step texts Q) (h : step s = .ok a s')
include hbuilds h

theorem Builds.waits (hwaits : s.Waits id t) : s'.Waits id t := by
  obtain ⟨⟨label, hid⟩, hne⟩ := hwaits
  obtain ⟨hedits, -, -⟩ := hbuilds h (Nat.le_refl _)
  obtain ⟨heq, hne'⟩ := hedits.waiting (Table.lt_size_of_get? hid) (Nat.le_refl _) hne
  exact ⟨⟨label, heq.trans hid⟩, hne'⟩

theorem Builds.grows : Grows s.function s'.function := (hbuilds h (Nat.le_refl _)).1.grows

end

theorem waits_switchTo (h : switchTo b s = .ok a s') (hne : b ≠ id) (hwaits : s.Waits id t) :
    s'.Waits id t := by
  obtain ⟨hcur, -, hf⟩ := switchTo_eq_ok h
  rw [Builder.Waits, hf, hcur]
  exact ⟨hwaits.1, hne⟩

theorem stands_switchTo (h : switchTo id s = .ok a s') (hwaits : s.Waits id t) :
    s'.Stands t (.inside id 0) := by
  obtain ⟨hcur, -, hf⟩ := switchTo_eq_ok h
  obtain ⟨⟨label, hid⟩, -⟩ := hwaits
  rw [Builder.Stands, hf, hcur]
  exact ⟨_, hid, rfl, rfl, rfl⟩

variable {t' : Option Terminator}

theorem waits_createBlock (h : createBlock tag t' s = .ok b s') (hwaits : s.Waits id t) :
    s'.Waits id t ∧ b ≠ id := by
  have hbuilds : Builds False outerView s.function.blocks.size (createBlock tag t') [] _ :=
    builds_createBlock _ _
  refine ⟨hbuilds.waits h hwaits, ?_⟩
  obtain ⟨rfl, -⟩ := createBlock_eq_ok h
  obtain ⟨⟨label, hid⟩, -⟩ := hwaits
  exact (Table.ne_next_of_get? hid).symm

theorem stands_createBlock (h : createBlock tag t' s = .ok id s') (hstands : s.Stands t x) :
    s'.Stands t x ∧ s'.Waits id t' := by
  obtain ⟨rfl, hcur, -, label, hf⟩ := createBlock_eq_ok h
  obtain ⟨b, hb, hopen, ht, hx⟩ := hstands
  rw [Builder.Stands, Builder.Waits, hf, hcur]
  refine ⟨⟨b, Table.get?_push_of_get? hb _, hopen, ht, hx⟩, ⟨label, ?_⟩, Table.ne_next_of_get? hb⟩
  simp [Table.get?_push]

theorem stands_createCell (h : createCell ty name s = .ok r s') (hstands : s.Stands t x) :
    s'.Stands t x := by
  obtain ⟨-, rfl⟩ := createCell_eq_ok h
  exact hstands

theorem stands_inheritedTerminator (h : inheritedTerminator s = .ok t' s')
    (hstands : s.Stands t x) :
    t' = t ∧ s' = s := by
  obtain ⟨rfl, rfl⟩ := inheritedTerminator_eq_ok h
  obtain ⟨b, hb, -, ht, -⟩ := hstands
  exact ⟨by simp [hb, ht], rfl⟩

end

section

variable {World : Type} {X : Setting World} {s s' : Builder} {t : Option Terminator} {x : Position}
  {fs fs' : State World}

open Build

theorem stands_emit (h : emit i s = .ok a s') (hstands : s.Stands t x)
    (hG : Grows s'.function X.function) :
    ∃ y, s'.Stands t y ∧ (∀ fs fs', i.exec X.environment X.program X.function fs = .next fs' →
        X.Goes 0 x fs y fs') ∧
      (∀ fs fs', i.exec X.environment X.program X.function fs = .hung fs' →
        ∀ count, X.proceed count x fs = .hung fs') := by
  obtain ⟨b, hb, hcur, -, ⟨hfinished, -⟩ | ⟨hopen, hf⟩⟩ := emit_eq_ok h
  · obtain ⟨b', hb', hopen, -, -⟩ := hstands
    obtain rfl := Option.mem_unique hb hb'
    simp [hfinished] at hopen
  · obtain ⟨b', hb', -, ht, rfl⟩ := hstands
    obtain rfl := Option.mem_unique hb hb'
    have hnew : s'.function.blocks.get? s'.current = some { b with instrs := b.instrs.push i } := by
      rw [hf, hcur, Table.get?_modify, if_pos rfl, hb]
      rfl
    obtain ⟨g, hg, hgrows⟩ := hG.blocks _ _ hnew
    rw [hcur] at hg
    have hi : g.instrs.toList[b.instrs.size]? = some i := by
      obtain ⟨rest, hrest⟩ := hgrows.instrs
      rw [← hrest]
      simp
    refine ⟨.inside s'.current (b.instrs.size + 1), ⟨_, hnew, hopen, ht, by simp⟩, ?_, ?_⟩
    · intro fs fs' hexec
      rw [hcur]
      exact Setting.goes_instr hg hi hexec
    · intro fs fs' hexec count
      exact Setting.hangs_instr hg hi hexec count

section

variable {a : Unit} (h : terminate term s = .ok a s') (hstands : s.Stands t x)
  (hG : Grows s'.function X.function)
include h hstands hG

theorem stands_terminate (count : Nat) : X.proceed count x fs =
      match term.exec X.environment fs with
      | .at next fs => X.proceed count (.start next) fs
      | outcome => outcome := by
  obtain ⟨b, hb, hcur, -, ⟨hfinished, -⟩ | ⟨hopen, hf⟩⟩ := terminate_eq_ok h
  · obtain ⟨b', hb', hopen, -, -⟩ := hstands
    obtain rfl := Option.mem_unique hb hb'
    simp [hfinished] at hopen
  · obtain ⟨b', hb', -, -, rfl⟩ := hstands
    obtain rfl := Option.mem_unique hb hb'
    have hnew : s'.function.blocks.get? s'.current =
        some { b with terminator := some term, finished := true } := by
      rw [hf, hcur, Table.get?_modify, if_pos rfl, hb]
      rfl
    obtain ⟨g, hg, hgrows⟩ := hG.blocks _ _ hnew
    rw [hcur] at hg
    obtain ⟨hinstrs, hterm, -⟩ := hgrows.finished rfl
    have hsize : g.instrs.size = b.instrs.size := by rw [hinstrs]
    rw [← hsize]
    exact Setting.proceed_terminator hg hterm count

theorem goes_terminate (hexec : term.exec X.environment fs = .at next fs') :
    X.Goes 0 x fs (.start next) fs' := by
  intro count
  rw [stands_terminate h hstands hG, hexec]
  rfl

end

theorem goes_jump (h : jump b s = .ok a s') (hstands : s.Stands t x)
    (hG : Grows s'.function X.function) : X.Goes 0 x fs (.start b) fs :=
  goes_terminate h hstands hG rfl

theorem goes_enter {id : BlockId} (hwaits : s.Waits id t) (hG : Grows s.function X.function) :
    X.Goes 1 (.start id) fs (.inside id 0) fs := by
  obtain ⟨⟨label, hid⟩, -⟩ := hwaits
  obtain ⟨g, hg, -⟩ := hG.blocks _ _ hid
  exact Setting.goes_start hg

end

end MxStar.Flow
