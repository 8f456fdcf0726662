import MxStar.Index

/-!
# String pools

A pool stores each string once.  Numbers are handed out densely in the order
of first insertion and never change: `get?_intern` and `get?_intern_of_get?`
say what an insertion does to the new string and to the old ones.
-/

namespace MxStar

/-- Strings without repetition, numbered in order of first insertion. -/
structure StringPool where
  values : Table .text String := ∅
deriving Repr

namespace StringPool

/-- The pool that holds nothing. -/
def empty : StringPool := {}

/-- The number of distinct strings. -/
def size (p : StringPool) : Nat :=
  p.values.size

/-- The string with a given number. -/
def get? (p : StringPool) (i : Index .text) : Option String :=
  p.values.get? i

/-- The number of a string that is already in the pool. -/
def indexOf? (p : StringPool) (s : String) : Option (Index .text) :=
  (p.values.entries.toList.idxOf? s).map Index.mk

/-- Every number with its string. -/
def toList (p : StringPool) : List (Index .text × String) :=
  p.values.pairs

/-- The number of a string, which is added unless the pool already holds it. -/
def intern (p : StringPool) (s : String) : Index .text × StringPool :=
  match p.indexOf? s with
  | some i => (i, p)
  | none => (p.values.next, { values := p.values.push s })

/-- Insert several strings in order. -/
def ofList (strings : List String) : StringPool :=
  strings.foldl (fun p s => (p.intern s).2) empty

theorem get?_of_indexOf? {p : StringPool} {s : String} {i : Index .text}
    (h : p.indexOf? s = some i) : p.get? i = some s := by
  obtain ⟨n, hn, rfl⟩ := Option.map_eq_some_iff.mp h
  simp only [get?, Table.get?]
  obtain ⟨hlt, heq, -⟩ := List.idxOf?_eq_some_iff.mp hn
  exact Array.getElem?_eq_some_iff.mpr ⟨by simpa using hlt, by simpa using heq⟩

theorem get?_intern (p : StringPool) (s : String) :
    (p.intern s).2.get? (p.intern s).1 = some s := by
  unfold intern
  split
  · exact get?_of_indexOf? ‹_›
  · simp [get?, Table.get?_push]

theorem get?_intern_of_get? {p : StringPool} {i : Index .text} {t : String}
    (s : String) (h : p.get? i = some t) : (p.intern s).2.get? i = some t := by
  unfold intern
  split
  · exact h
  · have hlt : i.val < p.values.size :=
      (Table.get?_isSome p.values i).mp (by simp only [get?] at h; simp [h])
    have hne : i ≠ p.values.next := by
      rintro rfl
      exact Nat.lt_irrefl _ hlt
    simpa [get?, Table.get?_push, hne] using h

end StringPool

end MxStar
