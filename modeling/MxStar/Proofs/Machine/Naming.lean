import Mathlib
import MxStar.Machine.Selection

/-!
# Virtual registers that selection hands out

Selection goes from one naming to the next.  A later naming keeps what an earlier
one says (`Naming.Grows`), and no two registers of the graph share a virtual
register (`Naming.Sound`).  So a virtual register that was handed out as a
temporary never comes to hold a value of the graph (`isTemporary_of_grows`), and
one that holds a value never holds another.
-/

namespace MxStar.Machine

open MxStar.Flow (RegisterId)

namespace Select

variable {α β : Type} {n n' : Naming}

variable {k : α → Select β} {x : Select α} {b : β} {a : α}

theorem bind_eq_ok :
    (x >>= k) n = .ok (b, n') ↔ ∃ a between, x n = .ok (a, between) ∧
    k a between = .ok (b, n') := by
  simp only [bind, StateT.bind, Except.bind]
  cases x n with
  | ok p =>
    obtain ⟨a, between⟩ := p
    simp
  | error e => simp

theorem bind2_eq_ok {γ : Type} {x : Select α} {k : α → Select β} {m : α → β → Select γ} {c : γ} :
    (x >>= fun a => k a >>= m a) n = .ok (c, n') ↔ ∃ a n1, x n = .ok (a, n1) ∧
      ∃ b n2, k a n1 = .ok (b, n2) ∧ m a b n2 = .ok (c, n') := by
  simp only [bind_eq_ok]

theorem bind_congr_ok {k' : α → Select β} (h : ∀ a n', x n = .ok (a, n') → k a n' = k' a n') :
    (x >>= k) n = (x >>= k') n := by
  simp only [bind, StateT.bind, Except.bind]
  cases hx : x n with
  | ok p => exact h p.1 p.2 hx
  | error e => rfl

theorem pure_eq_ok {b : α} : (pure a : Select α) n = .ok (b, n') ↔ a = b ∧ n = n' := by
  simp [pure, StateT.pure, Except.pure]

theorem pure_pair_eq_ok :
    (pure (a, b) : Select (α × β)) n = .ok ((a', b'), n') ↔ (a = a' ∧ b = b') ∧ n = n' := by
  rw [pure_eq_ok, Prod.mk.injEq]

theorem pure_triple_eq_ok {γ : Type} {a a' : α} {b b' : β} {c c' : γ} :
    (pure (a, b, c) : Select (α × β × γ)) n = .ok ((a', b', c'), n') ↔
      (a = a' ∧ b = b' ∧ c = c') ∧ n = n' := by
  rw [pure_eq_ok, Prod.mk.injEq, Prod.mk.injEq]

theorem bind_pure_eq_ok {f : α → β} :
    (x >>= fun a => pure (f a)) n = .ok (b, n') ↔ ∃ a, x n = .ok (a, n') ∧ f a = b := by
  simp only [bind_eq_ok, pure_eq_ok]
  exact ⟨fun ⟨a, _, hx, hb, hs⟩ => ⟨a, hs ▸ hx, hb⟩, fun ⟨a, hx, hb⟩ => ⟨a, n', hx, hb, rfl⟩⟩

theorem bind2_pure_eq_ok {γ : Type} {x : Select α} {k : α → Select β} {f : α → β → γ} {c : γ} :
    (x >>= fun a => k a >>= fun b => pure (f a b)) n = .ok (c, n') ↔
      ∃ a n1, x n = .ok (a, n1) ∧ ∃ b, k a n1 = .ok (b, n') ∧ f a b = c := by
  rw [bind_eq_ok]
  simp only [bind_pure_eq_ok]

theorem lift_eq_ok {x : Except Error α} :
    (liftM x : Select α) n = .ok (a, n') ↔ x = .ok a ∧ n = n' := by
  cases x with
  | ok b =>
    simp [liftM, monadLift, MonadLift.monadLift, StateT.lift, bind, Except.bind, pure, Except.pure]
  | error e => simp [liftM, monadLift, MonadLift.monadLift, StateT.lift, bind, Except.bind]

theorem lift_bind_eq_ok {x : Except Error α} :
    (liftM x >>= k) n = .ok (b, n') ↔ ∃ a, x = .ok a ∧ k a n = .ok (b, n') := by
  simp [bind_eq_ok, lift_eq_ok, and_assoc]

end Select

namespace Naming

/-- A later naming keeps what an earlier one says, and gives new numbers to the rest. -/
structure Grows (n n' : Naming) : Prop where
  values : ∀ (r : RegisterId) (v : VirtualId), n.values[r]? = some v → n'.values[r]? = some v
  virtuals : n.virtuals ≤ n'.virtuals
  fresh : ∀ (r : RegisterId) (v : VirtualId), n'.values[r]? = some v →
    n.values[r]? = some v ∨ n.virtuals ≤ v.val
  outgoing : n.outgoing ≤ n'.outgoing
  calls : n.makesCalls = true → n'.makesCalls = true

/-- Registers of the graph have numbers of their own, all of them handed out. -/
structure Sound (n : Naming) : Prop where
  lt : ∀ (r : RegisterId) (v : VirtualId), n.values[r]? = some v → v.val < n.virtuals
  injective : ∀ (r r' : RegisterId) (v : VirtualId),
    n.values[r]? = some v → n.values[r']? = some v → r = r'

def IsTemporary (n : Naming) (v : VirtualId) : Prop :=
  ∀ r : RegisterId, n.values[r]? ≠ some v

theorem sound_empty : Sound {} := ⟨by simp, by simp⟩

namespace Grows

theorem refl (n : Naming) : Grows n n := ⟨fun _ _ h => h, le_rfl, fun _ _ h => Or.inl h, le_rfl, id⟩

theorem trans (h : Grows n n') (h' : Grows n' n'') : Grows n n'' where
  values := fun r v hv => h'.values r v (h.values r v hv)
  virtuals := h.virtuals.trans h'.virtuals
  fresh := by
    intro r v hv
    rcases h'.fresh r v hv with hv' | hle
    · exact h.fresh r v hv'
    · exact Or.inr (h.virtuals.trans hle)
  outgoing := h.outgoing.trans h'.outgoing
  calls := fun hcalls => h'.calls (h.calls hcalls)

theorem isTemporary (h : Grows n N) (hv : n.IsTemporary v) (hlt : v.val < n.virtuals) :
    N.IsTemporary v := by
  intro r hr
  rcases h.fresh r v hr with hr' | hle
  · exact hv r hr'
  · omega

end Grows

end Naming

section

variable {n : Naming}

theorem fresh_bind {α : Type} (k : Register → Select α) (n : Naming) :
    (fresh >>= k) n = k (.virtual ⟨n.virtuals⟩) { n with virtuals := n.virtuals + 1 } := rfl

theorem Naming.grows_fresh (n : Naming) : n.Grows { n with virtuals := n.virtuals + 1 } :=
  ⟨fun _ _ h => h, Nat.le_succ _, fun _ _ h => Or.inl h, le_rfl, id⟩

def Naming.noteCall (n : Naming) (count : Nat) : Naming :=
  { n with outgoing := max n.outgoing count, makesCalls := true }

theorem noteCall_bind {α : Type} (count : Nat) (k : PUnit → Select α) (n : Naming) :
    ((modify fun s => { s with outgoing := max s.outgoing count, makesCalls := true }) >>= k) n =
      k ⟨⟩ (n.noteCall count) := rfl

theorem Naming.grows_noteCall (n : Naming) (count : Nat) : n.Grows (n.noteCall count) :=
  ⟨fun _ _ h => h, le_rfl, fun _ _ h => Or.inl h, le_max_left _ _, fun _ => rfl⟩

theorem Naming.Sound.noteCall (h : n.Sound) (count : Nat) : (n.noteCall count).Sound :=
  ⟨h.lt, h.injective⟩

theorem Naming.Sound.fresh (h : n.Sound) : Naming.Sound { n with virtuals := n.virtuals + 1 } :=
  ⟨fun r v hv => Nat.lt_succ_of_lt (h.lt r v hv), h.injective⟩

theorem Naming.Sound.isTemporary_fresh (h : n.Sound)
    (hN : Naming.Grows { n with virtuals := n.virtuals + 1 } N) : N.IsTemporary ⟨n.virtuals⟩ := by
  apply hN.isTemporary
  · intro r hr
    exact absurd (h.lt r _ hr) (Nat.lt_irrefl _)
  · exact Nat.lt_succ_self _

variable {r : RegisterId}

theorem Naming.grows_insert (n : Naming) (hr : n.values[r]? = none) : n.Grows { n with
      virtuals := n.virtuals + 1
      values := n.values.insert r ⟨n.virtuals⟩ } where
  values := by
    intro q v hq
    simp only [Std.ExtTreeMap.getElem?_insert, Std.compare_eq_iff_eq]
    rw [if_neg, hq]
    rintro rfl
    simp [hr] at hq
  virtuals := Nat.le_succ _
  fresh := by
    intro q v hq
    simp only [Std.ExtTreeMap.getElem?_insert, Std.compare_eq_iff_eq] at hq
    split at hq
    · cases hq
      exact Or.inr le_rfl
    · exact Or.inl hq
  outgoing := le_rfl
  calls := id

theorem Naming.Sound.insert (h : n.Sound) (r : RegisterId) : Naming.Sound { n with
      virtuals := n.virtuals + 1
      values := n.values.insert r ⟨n.virtuals⟩ } where
  lt := by
    intro q v hq
    simp only [Std.ExtTreeMap.getElem?_insert, Std.compare_eq_iff_eq] at hq
    split at hq
    · cases hq
      exact Nat.lt_succ_self _
    · exact Nat.lt_succ_of_lt (h.lt q v hq)
  injective := by
    intro q q' v hq hq'
    simp only [Std.ExtTreeMap.getElem?_insert, Std.compare_eq_iff_eq] at hq hq'
    split at hq
    · rename_i heq
      split at hq'
      · rename_i heq'
        rw [← heq, heq']
      · cases hq
        exact absurd (h.lt q' _ hq') (Nat.lt_irrefl _)
    · split at hq'
      · cases hq'
        exact absurd (h.lt q _ hq) (Nat.lt_irrefl _)
      · exact h.injective q q' v hq hq'

theorem exists_of_valueRegister (h : valueRegister r n = .ok (rd, n')) :
    (n.Sound → n'.Sound) ∧ n.Grows n' ∧ ∃ v, rd = .virtual v ∧ n'.values[r]? = some v := by
  simp only [valueRegister] at h
  obtain ⟨current, between, hget, h⟩ := Select.bind_eq_ok.mp h
  obtain ⟨rfl, rfl⟩ : n = current ∧ n = between := by
    simpa [get, getThe, MonadStateOf.get, StateT.get, pure, Except.pure] using hget
  cases hr : n.values[r]? with
  | some v =>
    simp only [hr] at h
    obtain ⟨rfl, rfl⟩ := Select.pure_eq_ok.mp h
    exact ⟨id, .refl n, v, rfl, hr⟩
  | none =>
    simp only [hr] at h
    obtain ⟨rfl, rfl⟩ : Register.virtual ⟨n.virtuals⟩ = rd ∧
        { n with virtuals := n.virtuals + 1
                 values := n.values.insert r ⟨n.virtuals⟩ } = n' := by
      simpa [modifyGet, MonadStateOf.modifyGet, StateT.modifyGet, pure, Except.pure] using h
    exact ⟨(·.insert r), n.grows_insert hr, _, rfl, Std.ExtTreeMap.getElem?_insert_self⟩

theorem valueRegister_eq_ok (hn : n.Sound) (h : valueRegister r n = .ok (rd, n')) :
    n'.Sound ∧ n.Grows n' ∧ ∃ v, rd = .virtual v ∧ n'.values[r]? = some v :=
  (exists_of_valueRegister h).imp_left (· hn)

end

end MxStar.Machine
