import Mathlib
import MxStar.Event

/-!
# Results of computations

How a computation that may fail, or that notes events, comes apart.  A result of
a sequence is a result of its second part, begun with what its first part left,
and the results for a list are those for its members.
-/

variable {ε α β : Type}

theorem Except.bind_eq_ok {k : α → Except ε β} :
    (x >>= k) = .ok b ↔ ∃ a, x = .ok a ∧ k a = .ok b := by
  cases x <;> simp [bind, Except.bind]

theorem Except.bind_pure_eq_ok {x : Except ε α} {f : α → β} {b : β} :
    (x >>= fun a => pure (f a)) = .ok b ↔ ∃ a, x = .ok a ∧ f a = b := by
  simp [bind_eq_ok, pure, Except.pure]

theorem Except.exists_of_isOk {x : Except ε α} (h : x.isOk = true) : ∃ a, x = .ok a := by
  cases x with
  | ok a => exact ⟨a, rfl⟩
  | error e => cases h

theorem Except.exists_bind {k : α → Except ε β} (hx : ∃ a, x = .ok a)
    (hk : ∀ a, x = .ok a → ∃ b, k a = .ok b) : ∃ b, (x >>= k) = .ok b := by
  obtain ⟨a, ha⟩ := hx
  obtain ⟨b, hb⟩ := hk a ha
  exact ⟨b, bind_eq_ok.mpr ⟨a, ha, hb⟩⟩

variable {l : List α} {r : List β}

theorem Except.exists_mapM {f : α → Except ε β} (h : ∀ a ∈ l, ∃ b, f a = .ok b) :
    ∃ r, l.mapM f = .ok r := by
  induction l with
  | nil => exact ⟨[], rfl⟩
  | cons a l ih =>
    rw [List.mapM_cons]
    refine exists_bind (h a (.head _)) fun b _ => ?_
    exact exists_bind (ih fun c hc => h c (.tail _ hc)) fun r _ => ⟨_, rfl⟩

theorem Except.forM_eq_ok {step : α → Except ε Unit} {list : List α} :
    list.forM step = .ok () ↔ ∀ a ∈ list, step a = .ok () := by
  induction list with
  | nil => exact ⟨fun _ => by simp, fun _ => rfl⟩
  | cons a rest ih =>
    show (step a >>= fun _ => rest.forM step) = .ok () ↔ _
    rw [bind_eq_ok, List.forall_mem_cons, ← ih]
    exact ⟨fun ⟨_, ha, hrest⟩ => ⟨ha, hrest⟩, fun ⟨ha, hrest⟩ => ⟨(), ha, hrest⟩⟩

theorem List.Forall₂.exists_of_getElem? {R : α → β → Prop} (h : Forall₂ R l r) {j : Nat} {a : α}
    (hj : l[j]? = some a) : ∃ b, r[j]? = some b ∧ R a b := by
  induction h generalizing j with
  | nil => simp at hj
  | cons hab _ ih =>
    cases j with
    | zero =>
      cases hj
      exact ⟨_, rfl, hab⟩
    | succ j => simpa using ih (by simpa using hj)

theorem List.Forall₂.exists_of_mem_right {R : α → β → Prop} (h : Forall₂ R l r) (hb : b ∈ r) :
    ∃ a ∈ l, R a b := by
  induction h with
  | nil => simp at hb
  | cons hab _ ih =>
    rcases List.mem_cons.mp hb with rfl | hb
    · exact ⟨_, .head _, hab⟩
    · obtain ⟨a, ha, hR⟩ := ih hb
      exact ⟨a, .tail _ ha, hR⟩

theorem List.Forall₂.map_eq_map {γ : Type} {f : α → γ} {g : β → γ}
    (h : Forall₂ (fun a b => f a = g b) l r) : l.map f = r.map g := by
  induction h with
  | nil => rfl
  | cons hhead _ ih => rw [List.map_cons, List.map_cons, hhead, ih]

theorem List.forall₂_of_mapM_eq_ok {f : α → Except ε β} (h : l.mapM f = .ok r) :
    Forall₂ (fun a b => f a = .ok b) l r := by
  induction l generalizing r with
  | nil =>
    cases h
    exact .nil
  | cons a l ih =>
    rw [List.mapM_cons] at h
    obtain ⟨b, hb, h⟩ := Except.bind_eq_ok.mp h
    obtain ⟨r', hr', rfl⟩ := Except.bind_pure_eq_ok.mp h
    exact .cons hb (ih hr')

namespace EStateM

variable {ε σ α β : Type} {s s' : σ} {x : EStateM ε σ α} {k : α → EStateM ε σ β} {e : ε}

def Result.passes (r : Result ε σ α) (check : α → Bool) : Bool :=
  match r with
  | .ok a _ => check a
  | .error _ _ => false

theorem exists_of_passes {r : Result ε σ α} {check : α → Bool} (h : r.passes check = true) :
    ∃ a s, r = .ok a s ∧ check a = true := by
  cases r with
  | ok a s => exact ⟨a, s, rfl, h⟩
  | error e s => cases h

theorem bind_eq_ok :
    (x >>= k) s = .ok b s' ↔ ∃ a between, x s = .ok a between ∧ k a between = .ok b s' := by
  simp only [bind, EStateM.bind]
  cases x s with
  | ok a between => simp
  | error e between => simp

theorem bind2_eq_ok {γ : Type} {m : α → β → EStateM ε σ γ} {c : γ} :
    (x >>= fun a => k a >>= m a) s = .ok c s' ↔ ∃ a s1, x s = .ok a s1 ∧
      ∃ b s2, k a s1 = .ok b s2 ∧ m a b s2 = .ok c s' := by
  simp only [bind_eq_ok]

theorem bind_eq_error : (x >>= k) s = .error e s' ↔
      x s = .error e s' ∨ ∃ a between, x s = .ok a between ∧ k a between = .error e s' := by
  simp only [bind, EStateM.bind]
  cases x s with
  | ok a between => simp
  | error e between => simp

theorem bind_congr_ok {k' : α → EStateM ε σ β} (h : ∀ a s', x s = .ok a s' → k a s' = k' a s') :
    (x >>= k) s = (x >>= k') s := by
  simp only [bind, EStateM.bind]
  cases hx : x s with
  | ok a s' => exact h a s' hx
  | error e s' => rfl

theorem pure_eq_ok : (pure a : EStateM ε σ α) s = .ok b s' ↔ a = b ∧ s = s' := by
  simp [pure, EStateM.pure]

theorem bind_pure_eq_ok {f : α → β} :
    (x >>= fun a => pure (f a)) s = .ok b s' ↔ ∃ a, x s = .ok a s' ∧ f a = b := by
  simp only [bind_eq_ok, pure_eq_ok]
  exact ⟨fun ⟨a, _, hx, hb, hs⟩ => ⟨a, hs ▸ hx, hb⟩, fun ⟨a, hx, hb⟩ => ⟨a, s', hx, hb, rfl⟩⟩

theorem bind2_pure_eq_ok {γ : Type} {f : α → β → γ} {c : γ} :
    (x >>= fun a => k a >>= fun b => pure (f a b)) s = .ok c s' ↔
      ∃ a s1, x s = .ok a s1 ∧ ∃ b, k a s1 = .ok b s' ∧ f a b = c := by
  rw [bind_eq_ok]
  simp only [bind_pure_eq_ok]

theorem map_eq_ok {f : α → β} : (f <$> x) s = .ok b s' ↔ ∃ a, x s = .ok a s' ∧ f a = b := by
  simp only [Functor.map, EStateM.map]
  cases x s with
  | ok a between => simp [and_comm]
  | error e between => simp

theorem throw_ne_ok : (throw e : EStateM ε σ α) s ≠ .ok a s' := by
  simp [throw, throwThe, MonadExceptOf.throw, EStateM.throw]

theorem ofExcept_eq_ok {x : Except ε α} :
    (ofExcept x : EStateM ε σ α) s = .ok a s' ↔ x = .ok a ∧ s = s' := by
  cases x with
  | ok b => simp [ofExcept, pure, EStateM.pure]
  | error e => simp [ofExcept, throw, throwThe, MonadExceptOf.throw, EStateM.throw]

theorem ofExcept_bind_eq_ok {x : Except ε α} :
    (ofExcept x >>= k) s = .ok b s' ↔ ∃ a, x = .ok a ∧ k a s = .ok b s' := by
  simp [bind_eq_ok, ofExcept_eq_ok, and_assoc]

theorem ofExcept_eq_error {x : Except ε α} :
    (ofExcept x : EStateM ε σ α) s = .error e s' ↔ x = .error e ∧ s = s' := by
  cases x with
  | ok b => simp [ofExcept, pure, EStateM.pure]
  | error e => simp [ofExcept, throw, throwThe, MonadExceptOf.throw, EStateM.throw]

theorem forall₂_of_mapM_eq_ok {f : α → EStateM ε σ β} {l : List α} {r : List β}
    (h : l.mapM f s = .ok r s') : List.Forall₂ (fun a b => ∃ s s', f a s = .ok b s') l r := by
  induction l generalizing r s with
  | nil =>
    obtain ⟨rfl, -⟩ := pure_eq_ok.mp h
    exact .nil
  | cons a l ih =>
    rw [List.mapM_cons] at h
    obtain ⟨b, s1, hb, h⟩ := bind_eq_ok.mp h
    obtain ⟨r', s2, hr', h⟩ := bind_eq_ok.mp h
    obtain ⟨rfl, rfl⟩ := pure_eq_ok.mp h
    exact .cons ⟨s, s1, hb⟩ (ih hr')

theorem exists_mapM {f : α → EStateM ε σ β} {l : List α}
    (h : ∀ a ∈ l, ∀ s, ∃ b s', f a s = .ok b s') (s : σ) : ∃ r s', l.mapM f s = .ok r s' := by
  induction l generalizing s with
  | nil => exact ⟨[], s, rfl⟩
  | cons a l ih =>
    obtain ⟨b, s1, hb⟩ := h a (.head _) s
    obtain ⟨r, s2, hr⟩ := ih (fun c hc => h c (.tail _ hc)) s1
    rw [List.mapM_cons]
    exact ⟨b :: r, s2, bind_eq_ok.mpr ⟨b, s1, hb, bind_eq_ok.mpr ⟨r, s2, hr, rfl⟩⟩⟩

end EStateM

theorem MxStar.Logged.note_bind {β : Type} (e : Event) (k : Unit → Logged β) :
    (note e >>= k) log = k () (log.push e) := rfl

/-! ## Steps that give the same

What a step gives does not depend on what was noted before it. -/

namespace MxStar.Logged

variable {α β γ δ : Type} {g : α → β} {h : γ → δ}

/-- What a step gives, without what it notes. -/
def outcome (step : Logged α) (log : Log) : Except Error α :=
  match step log with
  | .ok a _ => .ok a
  | .error e _ => .error e

theorem outcome_eq_ok {step : Logged α} {log : Log} :
    step.outcome log = .ok a ↔ ∃ log', step log = .ok a log' := by
  unfold outcome
  cases step log with
  | ok b log' => simp
  | error e log' => simp

/-- The second step gives what the first gives, seen through `g`, and fails as it does,
whatever was noted before. -/
def Mirrors (g : α → β) (x : Logged α) (y : Logged β) : Prop :=
  ∀ log log', y.outcome log' = g <$> x.outcome log

namespace Mirrors

variable {x : Logged α}

theorem eq_of_ok (hxy : Mirrors g x y) (hx : x log1 = .ok a log2) (hy : y log3 = .ok b log4) :
    b = g a := by
  have hb := hxy log1 log3
  rw [outcome_eq_ok.mpr ⟨log2, hx⟩, outcome_eq_ok.mpr ⟨log4, hy⟩] at hb
  exact Except.ok.inj hb

theorem pure (a : α) : Mirrors g (Pure.pure a) (Pure.pure (g a)) := fun _ _ => rfl

theorem throw (e : Error) : Mirrors g (throw e) (throw e) := fun _ _ => rfl

theorem note (e e' : Event) : Mirrors id (note e) (note e') := fun _ _ => rfl

theorem ofExcept {x : Except Error α} (hxy : y = g <$> x) :
    Mirrors g (ofExcept x) (ofExcept y) := by
  subst hxy
  intro log log'
  cases x <;> rfl

theorem bind {k : α → Logged γ} {k' : β → Logged δ} (hx : Mirrors g x y)
    (hk : ∀ a, (∃ log log', x log = .ok a log') → Mirrors h (k a) (k' (g a))) :
    Mirrors h (x >>= k) (y >>= k') := by
  intro log log'
  have hstep := hx log log'
  simp only [outcome, Bind.bind, EStateM.bind] at hstep ⊢
  cases hxlog : x log with
  | error e s =>
    rw [hxlog] at hstep
    cases hylog : y log' with
    | error e' s' =>
      rw [hylog] at hstep
      exact congrArg Except.error (Except.error.inj hstep)
    | ok b s' =>
      rw [hylog] at hstep
      cases hstep
  | ok a s =>
    rw [hxlog] at hstep
    cases hylog : y log' with
    | error e' s' =>
      rw [hylog] at hstep
      cases hstep
    | ok b s' =>
      rw [hylog] at hstep
      cases hstep
      exact hk a ⟨log, s, hxlog⟩ s s'

theorem map (hx : Mirrors id x x) : Mirrors g x (g <$> x) := by
  rw [map_eq_pure_bind]
  have hself : Mirrors g (x >>= Pure.pure) (x >>= fun a => Pure.pure (g a)) :=
    .bind hx fun a _ => .pure a
  rwa [bind_pure] at hself

theorem mapM {f : α → Logged γ} {f' : β → Logged δ} {l : List α}
    (hf : ∀ a ∈ l, Mirrors h (f a) (f' (g a))) :
    Mirrors (List.map h) (l.mapM f) ((l.map g).mapM f') := by
  induction l with
  | nil => exact .pure []
  | cons a rest ih =>
    rw [List.map_cons, List.mapM_cons, List.mapM_cons]
    refine .bind (hf a (.head _)) fun c _ => ?_
    refine .bind (ih fun a ha => hf a (.tail _ ha)) fun cs _ => ?_
    exact .pure (c :: cs)

end Mirrors

end MxStar.Logged
