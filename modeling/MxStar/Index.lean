import MxStar.Word
import Std.Data.ExtTreeSet

/-!
# Positions and tables

Blocks, registers, strings and stack slots are named by their position in the
table that holds them.  A position carries the kind of thing it counts, so a
block of a flow graph is never taken for a block of machine code.

Positions are 32 bits wide: `Index.ofNat` keeps the low 32 bits of a number
that comes from outside.  Inside the library a position is the size of a table
at the time of a `push`, and the key fact is `Table.get?_push`: a new entry is
found at the position it was given and no older one moves.
-/

namespace MxStar

/-- The kinds of things that are numbered. -/
inductive Kind
  /-- Blocks of a flow graph -/
  | block
  /-- Registers of a flow graph -/
  | register
  /-- Pooled string constants -/
  | text
  /-- Blocks of machine code -/
  | machineBlock
  /-- Virtual machine registers -/
  | virtual
  /-- Objects of a stack frame -/
  | slot
deriving DecidableEq, Repr

/-- The name under which a position of this kind is shown in a message. -/
def Kind.title : Kind → String
  | .block => "BlockId"
  | .register => "RegisterId"
  | .text => "StringId"
  | .machineBlock => "BlockId"
  | .virtual => "VirtualRegister"
  | .slot => "FrameSlot"

/-- A position in a table of things of one kind. -/
structure Index (kind : Kind) where
  val : Nat
deriving DecidableEq, Repr

namespace Index

variable {kind : Kind}

/-- Positions are 32 bits wide; higher bits of a number are dropped. -/
def ofNat (n : Nat) : Index kind :=
  ⟨n % sizeLimit⟩

/-- The position `amount` places further on, again cut to 32 bits. -/
def plus (i : Index kind) (amount : Nat) : Index kind :=
  ofNat (i.val + amount)

/-- The position as a message shows it, such as `BlockId(2)`. -/
def display (i : Index kind) : String :=
  s!"{kind.title}({i.val})"

instance : LawfulBEq (Index kind) := inferInstance

instance : Ord (Index kind) where
  compare a b := compare a.val b.val

theorem compare_eq (a b : Index kind) : compare a b = compare a.val b.val := rfl

instance : Std.TransOrd (Index kind) where
  eq_swap := by
    intro a b
    exact (Std.OrientedOrd.eq_swap : compare a.val b.val = (compare b.val a.val).swap)
  isLE_trans := by
    intro a b c hab hbc
    simp only [compare_eq, Nat.isLE_compare] at *
    omega

instance : Std.LawfulEqOrd (Index kind) where
  compare_self := by
    intro a
    simp
  eq_of_compare := by
    intro a b h
    rw [compare_eq, Nat.compare_eq_eq] at h
    cases a
    simp_all

end Index

/-- A finite set of positions, listed in ascending order. -/
abbrev IndexSet (kind : Kind) := Std.ExtTreeSet (Index kind)

/-- Entries named by their position. -/
structure Table (kind : Kind) (α : Type) where
  entries : Array α
deriving Repr

namespace Table

variable {kind : Kind} {α β : Type}

instance : EmptyCollection (Table kind α) := ⟨⟨#[]⟩⟩

instance : Inhabited (Table kind α) := ⟨∅⟩

/-- The number of entries. -/
def size (t : Table kind α) : Nat :=
  t.entries.size

/-- The entry at a position, if there is one. -/
def get? (t : Table kind α) (i : Index kind) : Option α :=
  t.entries[i.val]?

/-- The position the next entry will get. -/
def next (t : Table kind α) : Index kind :=
  ⟨t.entries.size⟩

/-- Add an entry at the end; its position is `next`. -/
def push (t : Table kind α) (a : α) : Table kind α :=
  ⟨t.entries.push a⟩

/-- Change the entry at a position; a position outside the table changes nothing. -/
def modify (t : Table kind α) (i : Index kind) (f : α → α) : Table kind α :=
  ⟨t.entries.modify i.val f⟩

/-- Apply a function to every entry. -/
def map (t : Table kind α) (f : α → β) : Table kind β :=
  ⟨t.entries.map f⟩

/-- All positions, in ascending order. -/
def indices (t : Table kind α) : List (Index kind) :=
  (List.range t.size).map Index.mk

/-- Every entry with its position, in ascending order. -/
def pairs (t : Table kind α) : List (Index kind × α) :=
  t.entries.toList.zipIdx.map fun (a, n) => (⟨n⟩, a)

/-- The entries as a message shows them, such as `[1, 2]`. -/
def display (t : Table kind α) (text : α → String) : String :=
  "[" ++ ", ".intercalate (t.entries.toList.map text) ++ "]"

@[simp]
theorem size_push (t : Table kind α) (a : α) : (t.push a).size = t.size + 1 := by
  simp [size, push]

@[simp]
theorem size_modify (t : Table kind α) (i : Index kind) (f : α → α) :
    (t.modify i f).size = t.size := by
  simp [size, modify]

@[simp]
theorem size_map (t : Table kind α) (f : α → β) : (t.map f).size = t.size := by
  simp [size, map]

theorem get?_isSome (t : Table kind α) (i : Index kind) :
    (t.get? i).isSome ↔ i.val < t.size := by
  simp [get?, size]

theorem get?_push (t : Table kind α) (a : α) (i : Index kind) :
    (t.push a).get? i = if i = t.next then some a else t.get? i := by
  cases i with
  | mk n => simp [get?, push, next, Array.getElem?_push]

theorem get?_modify (t : Table kind α) (i j : Index kind) (f : α → α) :
    (t.modify i f).get? j = if i = j then (t.get? j).map f else t.get? j := by
  cases i with
  | mk n =>
    cases j with
    | mk m => simp [get?, modify, Array.getElem?_modify]

@[simp]
theorem get?_map (t : Table kind α) (f : α → β) (i : Index kind) :
    (t.map f).get? i = (t.get? i).map f := by
  simp [get?, map]

theorem mem_indices (t : Table kind α) (i : Index kind) :
    i ∈ t.indices ↔ i.val < t.size := by
  cases i with
  | mk n => simp [indices]

end Table

end MxStar
