import Mathlib.Data.List.Induction
import MxStar.Pool
import MxStar.Source.Tree

/-!
# Texts and the pool that holds them

The texts of an expression and of a statement, in the order in which they are lowered.

A pool lists its strings in the order of first insertion and without repetition, and a
string keeps its number (`StringPool.indexOf?_ofList`).
-/

namespace MxStar

/-! ## Pools -/

namespace StringPool

variable {p : StringPool}

/-- Insert several strings in order. -/
def internAll (p : StringPool) (texts : List String) : StringPool :=
  texts.foldl (fun p s => (p.intern s).2) p

theorem internAll_append (texts more : List String) :
    p.internAll (texts ++ more) = (p.internAll texts).internAll more :=
  List.foldl_append

theorem ofList_append (texts more : List String) :
    ofList (texts ++ more) = (ofList texts).internAll more :=
  List.foldl_append

theorem indexOf?_intern (p : StringPool) (s : String) :
    (p.intern s).2.indexOf? s = some (p.intern s).1 := by
  unfold intern
  split
  · assumption
  · rename_i hnone
    have hs := List.idxOf?_eq_none_iff.mp (Option.map_eq_none_iff.mp hnone)
    simp only [indexOf?, Table.push, Array.toList_push, Option.map_eq_some_iff]
    refine ⟨p.values.entries.size, List.idxOf?_eq_some_iff.mpr ⟨by simp, by simp, ?_⟩, rfl⟩
    intro j hj
    rw [List.getElem_append_left (by simpa using hj)]
    exact fun heq => hs (heq ▸ List.getElem_mem _)

theorem indexOf?_intern_of_indexOf? (h : p.indexOf? t = some i) (s : String) :
    (p.intern s).2.indexOf? t = some i := by
  unfold intern
  split
  · exact h
  · obtain ⟨n, hn, rfl⟩ := Option.map_eq_some_iff.mp h
    obtain ⟨hlt, heq, hfirst⟩ := List.idxOf?_eq_some_iff.mp hn
    simp only [indexOf?, Table.push, Array.toList_push, Option.map_eq_some_iff]
    have hlt' : n < (p.values.entries.toList ++ [s]).length := by
      rw [List.length_append]
      omega
    refine ⟨n, List.idxOf?_eq_some_iff.mpr ⟨hlt', ?_, fun j hj => ?_⟩, rfl⟩
    · rwa [List.getElem_append_left hlt]
    · rw [List.getElem_append_left (Nat.lt_trans hj hlt)]
      exact hfirst j hj

theorem indexOf?_ofList (earlier : List String) (s : String) (later : List String) :
    (ofList (earlier ++ s :: later)).indexOf? s = some ((ofList earlier).intern s).1 := by
  rw [ofList_append]
  show (((ofList earlier).intern s).2.internAll later).indexOf? s = _
  induction later using List.reverseRecOn with
  | nil => exact indexOf?_intern _ s
  | append_singleton later t ih =>
    rw [internAll_append]
    exact indexOf?_intern_of_indexOf? ih t

theorem get?_internAll_of_get? (h : p.get? i = some t) (texts : List String) :
    (p.internAll texts).get? i = some t := by
  induction texts generalizing p with
  | nil => exact h
  | cons s texts ih => exact ih (get?_intern_of_get? s h)

theorem entries_ofList (texts : List String) :
    (ofList texts).values.entries.toList = texts.eraseDups := by
  induction texts using List.reverseRecOn with
  | nil => rfl
  | append_singleton texts s ih =>
    rw [ofList_append, List.eraseDups_append]
    show ((ofList texts).intern s).2.values.entries.toList = _
    unfold intern
    split
    · rename_i i hi
      obtain ⟨n, hn, -⟩ := Option.map_eq_some_iff.mp hi
      obtain ⟨hlt, heq, -⟩ := List.idxOf?_eq_some_iff.mp hn
      have hs : s ∈ texts := by
        rw [← List.mem_eraseDups, ← ih, ← heq]
        exact List.getElem_mem _
      simp [List.removeAll, hs, ih]
    · rename_i hnone
      have hs := List.idxOf?_eq_none_iff.mp (Option.map_eq_none_iff.mp hnone)
      rw [ih, List.mem_eraseDups] at hs
      simp [List.removeAll, hs, ih, Table.push, List.eraseDups_cons]

end StringPool

/-! ## Texts of a source -/

namespace Source

def Literal.texts : Literal → List String
  | .text value => [value]
  | _ => []

mutual

/-- The texts of an expression, in the order in which they are lowered.  Lengths of arrays
have no arguments and objects no counts. -/
def Expr.texts : Expr → List String
  | .literal _ value => value.texts
  | .this _ | .ident _ _ => []
  | .binary _ _ lhs rhs => lhs.texts ++ rhs.texts
  | .unary _ _ operand => operand.texts
  | .assign _ target value => value.texts ++ target.texts
  | .choice _ condition positive negative => condition.texts ++ (positive.texts ++ negative.texts)
  | .call _ _ arguments => textsOf arguments
  | .callMethod _ object _ arguments =>
    object.texts ++ if object.ty.isArray then [] else textsOf arguments
  | .element _ array position => array.texts ++ position.texts
  | .member _ object _ => object.texts
  | .new _ allocated counts => if allocated.isArray then textsOf counts else []

def textsOf : List Expr → List String
  | [] => []
  | e :: rest => e.texts ++ textsOf rest

end

def textsOf? (e : Option Expr) : List String :=
  e.elim [] Expr.texts

def VariableDef.texts (vars : VariableDef) : List String :=
  vars.declarators.flatMap fun d => textsOf? d.initial

def ForStart.texts : ForStart → List String
  | .declare vars => vars.texts
  | .evaluate e => e.texts

mutual

/-- The texts of a statement.  A loop is lowered before the step from one pass to the next. -/
def Stmt.texts : Stmt → List String
  | .block body => textsIn body
  | .declare vars => vars.texts
  | .ifElse condition positive negative => condition.texts ++ (textsIn positive ++ textsIn negative)
  | .whileLoop condition body => condition.texts ++ textsIn body
  | .forLoop start condition step body =>
    start.elim [] ForStart.texts ++ (textsOf? condition ++ (textsIn body ++ textsOf? step))
  | .giveBack value => textsOf? value
  | .evaluate e => e.texts
  | .breakLoop | .continueLoop | .empty => []

def textsIn : List Stmt → List String
  | [] => []
  | s :: rest => s.texts ++ textsIn rest

end

end Source

end MxStar
