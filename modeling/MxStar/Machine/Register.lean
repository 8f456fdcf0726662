import MxStar.Index

/-!
# Machine registers

The integer registers of the machine under their usual names, and the roles
the calling convention gives them.  Code is first written over virtual
registers, of which there are as many as needed.  Registers are ordered by
`Register.rank`: the physical ones by number, then the virtual ones.
-/

namespace MxStar.Machine

/-- The integer registers of the machine. -/
inductive Physical
  | zero
  | ra
  | sp
  | gp
  | tp
  | t0
  | t1
  | t2
  | s0
  | s1
  | a0
  | a1
  | a2
  | a3
  | a4
  | a5
  | a6
  | a7
  | s2
  | s3
  | s4
  | s5
  | s6
  | s7
  | s8
  | s9
  | s10
  | s11
  | t3
  | t4
  | t5
  | t6
deriving DecidableEq, Repr

namespace Physical

/-- All registers, by number. -/
def all : List Physical :=
  [.zero, .ra, .sp, .gp, .tp, .t0, .t1, .t2, .s0, .s1, .a0, .a1, .a2, .a3, .a4, .a5, .a6, .a7,
   .s2, .s3, .s4, .s5, .s6, .s7, .s8, .s9, .s10, .s11, .t3, .t4, .t5, .t6]

/-- The name of the register in assembly text. -/
def display : Physical → String
  | .zero => "zero"
  | .ra => "ra"
  | .sp => "sp"
  | .gp => "gp"
  | .tp => "tp"
  | .t0 => "t0"
  | .t1 => "t1"
  | .t2 => "t2"
  | .s0 => "s0"
  | .s1 => "s1"
  | .a0 => "a0"
  | .a1 => "a1"
  | .a2 => "a2"
  | .a3 => "a3"
  | .a4 => "a4"
  | .a5 => "a5"
  | .a6 => "a6"
  | .a7 => "a7"
  | .s2 => "s2"
  | .s3 => "s3"
  | .s4 => "s4"
  | .s5 => "s5"
  | .s6 => "s6"
  | .s7 => "s7"
  | .s8 => "s8"
  | .s9 => "s9"
  | .s10 => "s10"
  | .s11 => "s11"
  | .t3 => "t3"
  | .t4 => "t4"
  | .t5 => "t5"
  | .t6 => "t6"

/-- The number of the register. -/
def number (p : Physical) : Nat :=
  p.ctorIdx

/-- The registers that carry the first arguments of a call, in order. -/
def arguments : List Physical :=
  [.a0, .a1, .a2, .a3, .a4, .a5, .a6, .a7]

/-- The register that carries the result of a call. -/
def result : Physical := .a0

/-- The registers every call overwrites. -/
def callerSaved : List Physical :=
  [.t0, .t1, .t2, .t3, .t4, .t5, .a0, .a1, .a2, .a3, .a4, .a5, .a6, .a7, .ra]

/-- The registers every function gives back as it found them. -/
def calleeSaved : List Physical :=
  [.s0, .s1, .s2, .s3, .s4, .s5, .s6, .s7, .s8, .s9, .s10, .s11]

/-- Never allocated: large offsets of the frame are built in it. -/
def scratch : Physical := .t6

/-- The order in which registers are handed out.  Those that a call overwrites
come first, so that a short-lived value does not have to be saved. -/
def allocationOrder : List Physical :=
  [.t0, .t1, .t2, .t3, .t4, .t5, .a0, .a1, .a2, .a3, .a4, .a5, .a6, .a7,
   .s0, .s1, .s2, .s3, .s4, .s5, .s6, .s7, .s8, .s9, .s10, .s11]

/-- Whether values may be assigned to the register. -/
def isAllocatable (p : Physical) : Bool :=
  p ∈ allocationOrder

theorem all_number (p : Physical) : all[p.number]? = some p := by
  cases p <;> rfl

theorem number_injective {p q : Physical} (h : p.number = q.number) : p = q :=
  Option.some.inj (by rw [← all_number p, ← all_number q, h])

theorem number_lt (p : Physical) : p.number < 32 := by
  cases p <;> decide

end Physical

/-- The number of registers an allocation can always count on. -/
def minimumBudget : Nat := 3

/-- A virtual register. -/
abbrev VirtualId := Index .virtual

/-- A register of the machine or a virtual one. -/
inductive Register
  | physical (p : Physical)
  | virtual (v : VirtualId)
deriving DecidableEq, Repr

namespace Register

/-- The register that always holds zero. -/
abbrev zero : Register := .physical .zero

/-- The stack pointer. -/
abbrev sp : Register := .physical .sp

/-- Whether liveness follows the register: the reserved ones are left out. -/
def isTracked : Register → Bool
  | .physical p => p.isAllocatable
  | .virtual _ => true

/-- The virtual register, if it is one. -/
def virtual? : Register → Option VirtualId
  | .physical _ => none
  | .virtual v => some v

/-- The register in assembly text. -/
def display : Register → String
  | .physical p => p.display
  | .virtual v => s!"%v{v.val}"

/-- Physical registers by number, then virtual ones by position. -/
def rank : Register → Nat
  | .physical p => p.number
  | .virtual v => 32 + v.val

theorem rank_injective {a b : Register} (h : a.rank = b.rank) : a = b := by
  cases a with
  | physical p =>
    cases b with
    | physical q => rw [Physical.number_injective h]
    | virtual w =>
      have := p.number_lt
      simp only [rank] at h
      omega
  | virtual v =>
    cases b with
    | physical q =>
      have := q.number_lt
      simp only [rank] at h
      omega
    | virtual w =>
      cases v
      cases w
      simp only [rank] at h
      simp_all

instance : Ord Register where
  compare a b := compare a.rank b.rank

theorem compare_eq (a b : Register) : compare a b = compare a.rank b.rank := rfl

instance : Std.TransOrd Register where
  eq_swap := by
    intro a b
    exact (Std.OrientedOrd.eq_swap : compare a.rank b.rank = (compare b.rank a.rank).swap)
  isLE_trans := by
    intro a b c hab hbc
    simp only [compare_eq, Nat.isLE_compare] at *
    omega

instance : Std.LawfulEqOrd Register where
  compare_self := by
    intro a
    simp
  eq_of_compare := by
    intro a b h
    rw [compare_eq, Nat.compare_eq_eq] at h
    exact rank_injective h

end Register

/-- A finite set of registers, listed by rank. -/
abbrev RegisterSet := Std.ExtTreeSet Register

end MxStar.Machine
