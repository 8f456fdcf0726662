import MxStar.Proofs.Machine.Run

/-!
# The instructions of a run

A run executes instructions one after the other, each in the state that those before it
left (`Function.executed`).  What holds at the start of a run and is kept by every
instruction it executes holds where the run has got to (`Function.run_induction`).
-/

namespace MxStar.Machine

variable {σ : Type}

def State.after (s : State σ) : Effect σ → State σ
  | .next store => { s with store }
  | .write rd value store => State.set { s with store } rd value
  | .clobber after store => State.clobber { s with store } after
  | .goto _ | .ret _ => s
  | .halt _ store => { s with store }

def Instr.next (B : Backing σ) (i : Instr) (s : State σ) : State σ :=
  s.after (i.effect B s.store s.get)

def Outcome.state : Outcome σ → State σ
  | .at _ s | .returned _ s | .halted _ s => s

/-- Whether the instruction after this one is the next. -/
def Effect.continues : Effect σ → Bool
  | .next _ | .write _ _ _ | .clobber _ _ => true
  | .goto _ | .ret _ | .halt _ _ => false

/-- The instructions that are executed when code is run, each with the state it finds. -/
def executed (B : Backing σ) : List Instr → State σ → List (Instr × State σ)
  | [], _ => []
  | i :: rest, s =>
    (i, s) :: if (i.effect B s.store s.get).continues then executed B rest (i.next B s) else []

section

variable {B : Backing σ} {code : List Instr} {s : State σ}

theorem runCode_cons_of_continues (h : (i.effect B s.store s.get).continues = true) :
    runCode B (i :: code) s = runCode B code (i.next B s) := by
  rw [runCode, Instr.next]
  cases heffect : i.effect B s.store s.get with
  | next store => rfl
  | write rd value store => rfl
  | clobber after store => rfl
  | goto target => simp [heffect, Effect.continues] at h
  | ret value => simp [heffect, Effect.continues] at h
  | halt reason store => simp [heffect, Effect.continues] at h

theorem state_runCode_cons (h : (i.effect B s.store s.get).continues = false) :
    (runCode B (i :: code) s).state = i.next B s := by
  rw [runCode, Instr.next]
  cases heffect : i.effect B s.store s.get with
  | next store => simp [heffect, Effect.continues] at h
  | write rd value store => simp [heffect, Effect.continues] at h
  | clobber after store => simp [heffect, Effect.continues] at h
  | goto target => rfl
  | ret value => rfl
  | halt reason store => rfl

theorem mem_of_mem_executed (h : q ∈ executed B code s) : q.1 ∈ code := by
  induction code generalizing s with
  | nil => simp [executed] at h
  | cons i rest ih =>
    rw [executed, List.mem_cons] at h
    rcases h with rfl | h
    · exact .head _
    · split at h
      · exact .tail _ (ih h)
      · simp at h

theorem runCode_induction {P : State σ → Prop}
    (hstep : ∀ q ∈ executed B code s, P q.2 → P (q.1.next B q.2)) (h : P s) :
    P (runCode B code s).state := by
  induction code generalizing s with
  | nil => exact h
  | cons i rest ih =>
    have hfirst : P (i.next B s) := hstep (i, s) (.head _) h
    by_cases hcontinues : (i.effect B s.store s.get).continues = true
    · rw [runCode_cons_of_continues hcontinues]
      refine ih (fun q hq => hstep q ?_) hfirst
      rw [executed, if_pos hcontinues]
      exact .tail _ hq
    · rw [state_runCode_cons (by simpa using hcontinues)]
      exact hfirst

end

namespace Function

/-- The instructions that are executed from block `b` on, through at most `count` blocks. -/
def executedFrom (f : Function) (B : Backing σ) :
    (count : Nat) → (b : BlockId) → State σ → List (Instr × State σ)
  | 0, _, _ => []
  | count + 1, b, s =>
    match f.blocks.get? b with
    | none => []
    | some block =>
      executed B block.code s ++ match runCode B block.code s with
        | .at next s => f.executedFrom B count next s
        | _ => []

def executed (f : Function) (B : Backing σ) (count : Nat) (s : State σ) : List (Instr × State σ) :=
  f.executedFrom B count f.entry s

variable {f : Function}

theorem mem_code_of_get? (h : f.blocks.get? b = some block) (hi : i ∈ block.code) : i ∈ f.code :=
  List.mem_flatMap.mpr ⟨block, Array.mem_toList_iff.mpr (Array.mem_of_getElem? h), hi⟩

theorem mem_code_of_mem_executedFrom (h : q ∈ f.executedFrom B count b s) : q.1 ∈ f.code := by
  induction count generalizing b s with
  | zero => simp [executedFrom] at h
  | succ count ih =>
    rw [executedFrom] at h
    cases hblock : f.blocks.get? b with
    | none => simp [hblock] at h
    | some block =>
      simp only [hblock, List.mem_append] at h
      rcases h with h | h
      · exact mem_code_of_get? hblock (mem_of_mem_executed h)
      · split at h
        · exact ih h
        · simp at h

theorem runFrom_induction {P : State σ → Prop}
    (hstep : ∀ q ∈ f.executedFrom B count b s, P q.2 → P (q.1.next B q.2)) (h : P s) :
    P (f.runFrom B count b s).state := by
  induction count generalizing b s with
  | zero => exact h
  | succ count ih =>
    rw [runFrom, runBlock]
    cases hblock : f.blocks.get? b with
    | none => exact h
    | some block =>
      simp only [executedFrom, hblock, List.mem_append] at hstep
      have hend := runCode_induction (fun q hq => hstep q (.inl hq)) h
      simp only []
      cases hrun : runCode B block.code s with
      | «at» next s' =>
        rw [hrun] at hend
        refine ih (fun q hq => hstep q (.inr ?_)) hend
        simpa only [hrun] using hq
      | returned value s' =>
        rw [hrun] at hend
        exact hend
      | halted reason s' =>
        rw [hrun] at hend
        exact hend

theorem run_induction {P : State σ → Prop}
    (hstep : ∀ q ∈ f.executed B count s, q.1 ∈ f.code → P q.2 → P (q.1.next B q.2)) (h : P s) :
    P (f.run B count s).state :=
  runFrom_induction (fun q hq => hstep q hq (mem_code_of_mem_executedFrom hq)) h

end Function

end MxStar.Machine
