/-!
# Machine words

A word is 32 bits wide and is written in decimal as a signed number.  Sizes and
offsets are counted in natural numbers and are only accepted while they fit a
word; the rounding rule for them is `alignTo`.
-/

namespace MxStar

/-- A 32-bit machine word. -/
abbrev Word := BitVec 32

namespace Word

/-- The decimal text of the word, read as a signed number. -/
def display (w : Word) : String :=
  toString w.toInt

end Word

/-- Size in bytes of a word and of every address. -/
def wordSize : Nat := 4

/-- One more than the greatest number of 32 bits.  Sizes, offsets and positions
stay below it. -/
def sizeLimit : Nat := 0x100000000

/-- The least multiple of `alignment` that is not below `offset`.  An alignment
of zero or one leaves the offset as it is. -/
def alignTo (offset alignment : Nat) : Nat :=
  if alignment ≤ 1 then offset else (offset + alignment - 1) / alignment * alignment

/-- Whether a number fits the signed 12-bit immediate of an instruction. -/
def fitsImmediate (value : Int) : Bool :=
  decide (-2048 ≤ value ∧ value ≤ 2047)

/-- The sum of two signed 64-bit numbers, unless it leaves their range. -/
def addSigned64? (a b : Int) : Option Int :=
  if -0x8000000000000000 ≤ a + b ∧ a + b < 0x8000000000000000 then some (a + b) else none

theorem le_alignTo (offset alignment : Nat) : offset ≤ alignTo offset alignment := by
  unfold alignTo
  split
  · exact Nat.le_refl _
  · rename_i h
    have hdiv := Nat.div_add_mod (offset + alignment - 1) alignment
    have hmod := Nat.mod_lt (offset + alignment - 1) (show 0 < alignment by omega)
    rw [Nat.mul_comm]
    omega

theorem alignTo_lt (offset alignment : Nat) (h : 0 < alignment) :
    alignTo offset alignment < offset + alignment := by
  unfold alignTo
  split
  · omega
  · have hdiv := Nat.div_mul_le_self (offset + alignment - 1) alignment
    omega

theorem dvd_alignTo (offset alignment : Nat) (h : 0 < alignment) :
    alignment ∣ alignTo offset alignment := by
  unfold alignTo
  split
  · have : alignment = 1 := by omega
    simp [this]
  · exact Nat.dvd_mul_left _ _

/-- No multiple of the alignment that is not below the offset is smaller. -/
theorem alignTo_le {offset alignment n : Nat} (h : offset ≤ n) (hdvd : alignment ∣ n) :
    alignTo offset alignment ≤ n := by
  unfold alignTo
  split
  · exact h
  · rename_i hlt
    obtain ⟨k, rfl⟩ := hdvd
    have hdiv : (offset + alignment - 1) / alignment ≤ k := by
      refine Nat.lt_succ_iff.mp ((Nat.div_lt_iff_lt_mul (by omega)).mpr ?_)
      rw [Nat.succ_mul, Nat.mul_comm]
      omega
    rw [Nat.mul_comm]
    exact Nat.mul_le_mul_left _ hdiv

theorem fitsImmediate_iff (value : Int) :
    fitsImmediate value = true ↔ -2048 ≤ value ∧ value ≤ 2047 := by
  simp [fitsImmediate]

end MxStar
