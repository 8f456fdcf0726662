import MxStar.Machine.Interference

/-!
# Colouring

Virtual registers are coloured with the registers of a palette so that
neighbours differ.  First the graph is taken apart: a register with fewer
neighbours left than there are colours can be put aside, because a colour for
it will be left whatever the others get.  When no such register exists, the one
that is cheapest to spill is put aside instead; it may still find a colour.
Then the registers are coloured in the opposite order.

The cost of spilling is the number of mentions per neighbour.  Quotients are
compared by cross-multiplication, and of equal ones the register with the least
number wins.
-/

namespace MxStar.Machine

/-- What it costs to spill a register. -/
inductive SpillCost
  | ratio (mentions degree : Nat)
  /-- Spilling would gain nothing -/
  | never
deriving DecidableEq, Repr

/-- Whether one cost is less than another. -/
def SpillCost.less : SpillCost → SpillCost → Bool
  | .ratio m d, .ratio m' d' => decide (m * d' < m' * d)
  | .ratio _ _, .never => true
  | .never, _ => false

/-- The first of the least costly registers. -/
def cheapest (cost : VirtualId → SpillCost) : List VirtualId → Option VirtualId
  | [] => none
  | v :: rest =>
    match cheapest cost rest with
    | none => some v
    | some w => if (cost w).less (cost v) then some w else some v

theorem cheapest_mem {cost : VirtualId → SpillCost} {list : List VirtualId} {v : VirtualId}
    (h : cheapest cost list = some v) : v ∈ list := by
  induction list generalizing v with
  | nil => simp [cheapest] at h
  | cons a rest ih =>
    simp only [cheapest] at h
    split at h
    · simp_all
    · rename_i w hw
      split at h
      · exact List.mem_cons_of_mem _ (ih (hw.trans h))
      · simp_all

theorem cheapest_isSome (cost : VirtualId → SpillCost) (list : List VirtualId) :
    (cheapest cost list).isSome ↔ list ≠ [] := by
  cases list with
  | nil => simp [cheapest]
  | cons a rest =>
    simp only [cheapest]
    split
    · simp
    · split <;> simp

/-- The colours an allocation may use. -/
def palette (budget : Option Nat) : List Physical :=
  let all := Physical.allocationOrder
  all.take (max minimumBudget (min (budget.getD all.length) all.length))

theorem palette_sublist (budget : Option Nat) :
    (palette budget).Sublist Physical.allocationOrder := List.take_sublist _ _

/-- What decides which register is spilled. -/
structure SpillInfo where
  mentions : Std.ExtTreeMap VirtualId Nat := ∅
  unspillable : IndexSet .virtual := ∅

/-- The mentions in a function, and its temporaries. -/
def Function.spillInfo (f : Function) : SpillInfo :=
  { mentions := f.occurrences, unspillable := f.unspillable }

/-- Colours of virtual registers. -/
abbrev Colors := Std.ExtTreeMap VirtualId Physical

/-- The registers that got a colour, and those that did not. -/
structure Coloring where
  colors : Colors := ∅
  uncolored : List VirtualId := []

namespace Interference

/-- The number of neighbours that are still there or that hold a colour of the palette. -/
def degree (g : Interference) (palette : List Physical) (remaining : IndexSet .virtual)
    (v : VirtualId) : Nat :=
  (g.neighbours v).toList.countP fun
    | .virtual w => remaining.contains w
    | .physical p => p ∈ palette

/-- The cost of spilling a register. -/
def spillCost (g : Interference) (info : SpillInfo) (palette : List Physical)
    (remaining : IndexSet .virtual) (v : VirtualId) : SpillCost :=
  if info.unspillable.contains v then
    .never
  else
    .ratio ((info.mentions[v]?).getD 0) (max (g.degree palette remaining v) 1)

/-- The register to put aside next: the first that is sure to find a colour, or
else the cheapest to spill. -/
def pick (g : Interference) (info : SpillInfo) (palette : List Physical)
    (remaining : IndexSet .virtual) : Option VirtualId :=
  let list := remaining.toList
  match list.find? fun v => g.degree palette remaining v < palette.length with
  | some v => some v
  | none => cheapest (g.spillCost info palette remaining) list

/-- The order in which `count` of the remaining registers are put aside. -/
def simplify (g : Interference) (info : SpillInfo) (palette : List Physical) :
    (count : Nat) → (remaining : IndexSet .virtual) → List VirtualId
  | 0, _ => []
  | count + 1, remaining =>
    match g.pick info palette remaining with
    | some v => v :: simplify g info palette count (remaining.erase v)
    | none => []

/-- The colours a register's neighbours already have. -/
def taken (g : Interference) (colors : Colors) (v : VirtualId) : List Physical :=
  (g.neighbours v).toList.filterMap fun
    | .virtual w => colors[w]?
    | .physical p => some p

/-- Give a register the first colour that none of its neighbours has. -/
def colorOne (g : Interference) (palette : List Physical) (c : Coloring) (v : VirtualId) :
    Coloring :=
  match palette.find? fun color => color ∉ g.taken c.colors v with
  | some color => { c with colors := c.colors.insert v color }
  | none => { c with uncolored := c.uncolored ++ [v] }

/-- All virtual registers of the graph. -/
def registers (g : Interference) : IndexSet .virtual :=
  Std.ExtTreeSet.ofList g.adjacency.keys

/-- Colour the registers of the graph. -/
def color (g : Interference) (info : SpillInfo) (palette : List Physical) : Coloring :=
  let order := g.simplify info palette g.registers.size g.registers
  order.reverse.foldl (g.colorOne palette) {}

end Interference

end MxStar.Machine
