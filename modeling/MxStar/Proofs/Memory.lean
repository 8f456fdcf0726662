import Mathlib
import MxStar.Machine.Instr

/-!
# Arithmetic and memory of the machine

Words wrap around.  Division follows the rule of the machine: a quotient by
zero is minus one, a remainder by zero is the dividend, and the least number
divided by minus one is itself.  Shifts use the low five bits of their amount.

Memory is a byte for every address.  Words are stored with the low byte first,
and a byte that is loaded is extended with zeros.
-/

namespace MxStar

namespace Word

def ofBool (b : Bool) : Word :=
  if b then 1 else 0

/-- The signed quotient, rounded toward zero. -/
def quotient (a b : Word) : Word :=
  if b = 0 then -1 else a.sdiv b

/-- The remainder that goes with `quotient`. -/
def remainder (a b : Word) : Word :=
  if b = 0 then a else a.srem b

def shiftLeft (a b : Word) : Word :=
  a <<< (b.toNat % 32)

/-- Shift to the right by the low five bits of `b`, copying the sign. -/
def shiftRight (a b : Word) : Word :=
  a.sshiftRight (b.toNat % 32)

theorem shiftLeft_and_low (a b : Word) : shiftLeft a (b &&& 31) = shiftLeft a b := by
  have hmask : (b &&& 31).toNat = b.toNat % 32 := by
    rw [BitVec.toNat_and]
    exact Nat.and_two_pow_sub_one_eq_mod b.toNat 5
  simp only [shiftLeft, hmask, Nat.mod_mod]

theorem shiftRight_and_low (a b : Word) : shiftRight a (b &&& 31) = shiftRight a b := by
  have hmask : (b &&& 31).toNat = b.toNat % 32 := by
    rw [BitVec.toNat_and]
    exact Nat.and_two_pow_sub_one_eq_mod b.toNat 5
  simp only [shiftRight, hmask, Nat.mod_mod]

end Word

open Machine (Width)

/-- The contents of every address. -/
abbrev Memory := Word → BitVec 8

namespace Memory

/-- The value at an address. -/
def read (m : Memory) (width : Width) (a : Word) : Word :=
  match width with
  | .byte => (m a).setWidth 32
  | .word => m (a + 3) ++ m (a + 2) ++ m (a + 1) ++ m a

def write (m : Memory) (width : Width) (a value : Word) : Memory :=
  match width with
  | .byte => fun b => if b = a then value.extractLsb' 0 8 else m b
  | .word => fun b =>
    if b = a then value.extractLsb' 0 8
    else if b = a + 1 then value.extractLsb' 8 8
    else if b = a + 2 then value.extractLsb' 16 8
    else if b = a + 3 then value.extractLsb' 24 8
    else m b

end Memory

namespace Machine

/-- The addresses that an access at `a` touches. -/
def Width.Covers (width : Width) (a b : Word) : Prop :=
  match width with
  | .byte => b = a
  | .word => b = a ∨ b = a + 1 ∨ b = a + 2 ∨ b = a + 3

def Width.part (width : Width) (w : Word) : Word :=
  match width with
  | .byte => w &&& 0xff
  | .word => w

def Width.merge (width : Width) (old new : Word) : Word :=
  match width with
  | .byte => (old &&& ~~~0xff) ||| (new &&& 0xff)
  | .word => new

/-- What an operator on two registers computes. -/
def AluOp.apply : AluOp → Word → Word → Word
  | .add, a, b => a + b
  | .sub, a, b => a - b
  | .mul, a, b => a * b
  | .div, a, b => a.quotient b
  | .rem, a, b => a.remainder b
  | .sll, a, b => a.shiftLeft b
  | .sra, a, b => a.shiftRight b
  | .and, a, b => a &&& b
  | .or, a, b => a ||| b
  | .xor, a, b => a ^^^ b
  | .slt, a, b => Word.ofBool (a.slt b)
  | .sltu, a, b => Word.ofBool (a.ult b)

namespace AluImmOp

/-- What an operator on a register and a number computes. -/
def apply : AluImmOp → Word → Word → Word
  | .addi, a, value => a + value
  | .slli, a, value => a.shiftLeft value
  | .srai, a, value => a.shiftRight value
  | .andi, a, value => a &&& value
  | .ori, a, value => a ||| value
  | .xori, a, value => a ^^^ value
  | .slti, a, value => Word.ofBool (a.slt value)
  | .sltiu, a, value => Word.ofBool (a.ult value)

/-- Whether the instruction has room for the number: five bits for the amount
of a shift and twelve for anything else. -/
def encodes : AluImmOp → Word → Bool
  | .slli, value | .srai, value => decide (value.toNat < 32)
  | _, value => fitsImmediate value.toInt

end AluImmOp

end Machine

namespace Memory

variable {m m' : Memory} {width : Width} {a w b : Word}

theorem read_congr (h : ∀ b, width.Covers a b → m b = m' b) : m.read width a = m'.read width a := by
  cases width with
  | byte => simp only [read, h a rfl]
  | word =>
    simp only [read]
    rw [h a (.inl rfl), h (a + 1) (.inr (.inl rfl)), h (a + 2) (.inr (.inr (.inl rfl))),
      h (a + 3) (.inr (.inr (.inr rfl)))]

theorem write_of_not_covers (h : ¬ width.Covers a b) : m.write width a w b = m b := by
  cases width with
  | byte => exact if_neg h
  | word =>
    simp only [Width.Covers, not_or] at h
    obtain ⟨h0, h1, h2, h3⟩ := h
    simp only [write, if_neg h0, if_neg h1, if_neg h2, if_neg h3]

theorem write_congr (h : m b = m' b) : m.write width a w b = m'.write width a w b := by
  cases width with
  | byte => simp only [write, h]
  | word => simp only [write, h]

private theorem append_bytes (w : Word) :
    w.extractLsb' 24 8 ++ w.extractLsb' 16 8 ++ w.extractLsb' 8 8 ++ w.extractLsb' 0 8 = w := by
  rw [BitVec.extractLsb'_append_extractLsb'_eq_extractLsb' (by omega),
    BitVec.extractLsb'_append_extractLsb'_eq_extractLsb' (by omega),
    BitVec.extractLsb'_append_extractLsb'_eq_extractLsb' (by omega)]
  exact BitVec.extractLsb'_eq_self

theorem read_write_word (m : Memory) (a w : Word) : (m.write .word a w).read .word a = w := by
  have h1 : a + 1 ≠ a := by simp
  have h2 : a + 2 ≠ a := by simp
  have h3 : a + 3 ≠ a := by simp
  have h21 : a + 2 ≠ a + 1 := by simp
  have h31 : a + 3 ≠ a + 1 := by simp
  have h32 : a + 3 ≠ a + 2 := by simp
  simp only [read, write, if_neg h1, if_neg h2, if_neg h3, if_neg h21, if_neg h31, if_neg h32,
    if_true]
  exact append_bytes w

theorem read_write_byte (m : Memory) (a : Word) (h : w = 0 ∨ w = 1) :
    (m.write .byte a w).read .byte a = w := by
  simp only [read, write, if_true]
  rcases h with rfl | rfl <;> rfl

end Memory

end MxStar
