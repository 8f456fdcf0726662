import Mathlib
import MxStar.Index

/-!
# Entries of tables
-/

namespace MxStar.Table

variable {kind : Kind} {α : Type} {t : Table kind α} {i : Index kind} {a : α}

theorem mem_pairs : (i, a) ∈ t.pairs ↔ t.get? i = some a := by
  cases i with
  | mk n =>
    simp only [pairs, get?, List.mem_map, Prod.mk.injEq, Index.mk.injEq, Prod.exists]
    constructor
    · rintro ⟨a', n', hmem, rfl, rfl⟩
      simpa using List.mem_zipIdx_iff_getElem?.mp hmem
    · intro h
      exact ⟨a, n, List.mem_zipIdx_iff_getElem?.mpr (by simpa using h), rfl, rfl⟩

theorem lt_size_of_get? (h : t.get? i = some a) : i.val < t.size :=
  (t.get?_isSome i).mp (by simp [h])

theorem exists_get? (h : i.val < t.size) : ∃ a, t.get? i = some a :=
  Option.isSome_iff_exists.mp ((t.get?_isSome i).mpr h)

theorem ne_next_of_get? (h : t.get? i = some a) : i ≠ t.next := by
  intro heq
  have hlt := lt_size_of_get? h
  simp [heq, next, size] at hlt

theorem get?_push_of_get? (h : t.get? i = some a) (new : α) : (t.push new).get? i = some a := by
  rw [get?_push, if_neg (ne_next_of_get? h), h]

@[simp]
theorem indices_push (t : Table kind α) (a : α) : (t.push a).indices = t.indices ++ [t.next] := by
  simp only [indices, size_push, List.range_succ, List.map_append, List.map_cons, List.map_nil]
  rfl

@[simp]
theorem indices_modify (t : Table kind α) (i : Index kind) (f : α → α) :
    (t.modify i f).indices = t.indices := by
  simp [indices]

theorem ext_get? {t : Table kind α} (h : ∀ i, t.get? i = t'.get? i) : t = t' := by
  cases t with
  | mk entries =>
    cases t' with
    | mk entries' =>
      have heq : entries = entries' := Array.ext_getElem? fun n => h ⟨n⟩
      rw [heq]

theorem modify_modify (t : Table kind α) (i : Index kind) (f g : α → α) :
    (t.modify i f).modify i g = t.modify i fun a => g (f a) := by
  refine ext_get? fun j => ?_
  simp only [get?_modify]
  split <;> simp [Function.comp_def]

theorem modify_congr {f g : α → α}
    (h : ∀ a, t.get? i = some a → f a = g a) : t.modify i f = t.modify i g := by
  refine ext_get? fun j => ?_
  simp only [get?_modify]
  split
  · rename_i heq
    subst heq
    cases hfound : t.get? i with
    | none => rfl
    | some a => simp [h a hfound]
  · rfl

theorem modify_id (t : Table kind α) (i : Index kind) : (t.modify i fun a => a) = t := by
  refine ext_get? fun j => ?_
  rw [get?_modify]
  split <;> simp

theorem indices_map {β : Type} (t : Table kind α) (f : α → β) : (t.map f).indices = t.indices := by
  simp [indices]

theorem mem_entries_of_mem_pairs (h : p ∈ t.pairs) : p.2 ∈ t.entries.toList := by
  obtain ⟨x, hx, rfl⟩ := List.mem_map.mp h
  exact List.fst_mem_of_mem_zipIdx hx

theorem pairs_map {β : Type} (t : Table kind α) (f : α → β) :
    (t.map f).pairs = t.pairs.map fun p => (p.1, f p.2) := by
  simp only [pairs, map, Array.toList_map, List.zipIdx_map, List.map_map]
  rfl

theorem nodup_indices (t : Table kind α) : t.indices.Nodup :=
  List.nodup_range.map fun _ _ h => (Index.mk.inj h)

theorem forall_get?_iff {p : α → Prop} :
    (∀ i a, t.get? i = some a → p a) ↔ ∀ a ∈ t.entries.toList, p a := by
  constructor
  · intro h a ha
    obtain ⟨n, hn⟩ := List.getElem?_of_mem ha
    exact h ⟨n⟩ a (by simpa [Table.get?] using hn)
  · intro h i a hia
    exact h a (Array.mem_toList_iff.mpr (Array.mem_of_getElem? hia))

instance {t : Table kind α} {p : α → Prop} [DecidablePred p] :
    Decidable (∀ i a, t.get? i = some a → p a) :=
  decidable_of_iff _ forall_get?_iff.symm

end MxStar.Table
