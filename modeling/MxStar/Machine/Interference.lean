import MxStar.Machine.Liveness

/-!
# Interference

Two registers interfere when one is written while the other is live, for then
they cannot share a place.  A move does not make its source and its destination
interfere: after it both hold the same value.

Only virtual registers have lists of neighbours.  Physical registers are fixed
and occur only as neighbours.
-/

namespace MxStar.Machine

/-- The neighbours of every virtual register. -/
structure Interference where
  adjacency : Std.ExtTreeMap VirtualId RegisterSet := ∅

namespace Interference

/-- The neighbours of a virtual register. -/
def neighbours (g : Interference) (v : VirtualId) : RegisterSet :=
  (g.adjacency[v]?).getD ∅

/-- Whether two registers interfere. -/
def interferes (g : Interference) (v : VirtualId) (r : Register) : Bool :=
  (g.neighbours v).contains r

/-- Make `b` a neighbour of `a`, if `a` is virtual. -/
def addNeighbour (g : Interference) (a b : Register) : Interference :=
  match a with
  | .virtual v => ⟨g.adjacency.insert v ((g.neighbours v).insert b)⟩
  | .physical _ => g

/-- Make two registers neighbours of each other. -/
def addEdge (g : Interference) (a b : Register) : Interference :=
  (g.addNeighbour a b).addNeighbour b a

theorem interferes_addNeighbour (g : Interference) (a b : Register) (v : VirtualId)
    (r : Register) :
    (g.addNeighbour a b).interferes v r ↔ g.interferes v r ∨ a = .virtual v ∧ b = r := by
  cases a with
  | physical p => simp [addNeighbour]
  | virtual w =>
    by_cases h : w = v
    · subst h
      simp [addNeighbour, interferes, neighbours, or_comm]
    · simp [addNeighbour, interferes, neighbours, Std.ExtTreeMap.getElem?_insert, h]

theorem interferes_addEdge (g : Interference) (a b : Register) (v : VirtualId) (r : Register) :
    (g.addEdge a b).interferes v r ↔
      g.interferes v r ∨ a = .virtual v ∧ b = r ∨ b = .virtual v ∧ a = r := by
  simp [addEdge, interferes_addNeighbour, or_assoc]

/-- Make a written register a neighbour of all that are live. -/
def addDefinition (live : RegisterSet) (g : Interference) (written : Register) : Interference :=
  live.toList.foldl (fun g r => if r = written then g else g.addEdge written r) g

/-- The registers an instruction's definitions can clash with, from those live after it. -/
def clashing (i : Instr) (after : RegisterSet) : RegisterSet :=
  match i with
  | .mv _ rs => after.erase rs
  | _ => after

/-- Walk backwards over an instruction. -/
def walk (i : Instr) (state : RegisterSet × Interference) : RegisterSet × Interference :=
  (i.liveBefore state.1, i.defs.foldl (addDefinition (clashing i state.1)) state.2)

/-- Add the interferences within a piece of code. -/
def addCode (g : Interference) (code : List Instr) (liveOut : RegisterSet) : Interference :=
  (code.foldr walk (liveOut, g)).2

/-- A graph over virtual registers without any edge. -/
def vertices (registers : List VirtualId) : Interference :=
  ⟨registers.foldl (fun adjacency v => adjacency.insert v ∅) ∅⟩

/-- The interferences of a function. -/
def build (f : Function) (l : Liveness) : Interference :=
  f.blocks.pairs.foldl (fun g (id, b) => g.addCode b.code (l.block id).liveOut)
    (vertices f.inUse.toList)

end Interference

end MxStar.Machine
