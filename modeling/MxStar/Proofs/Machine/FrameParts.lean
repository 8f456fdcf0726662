import MxStar.Machine.Function
import MxStar.Proofs.Memory

/-!
# The parts of a laid-out frame

A frame holds words for the stack arguments of calls, its objects and the registers that are
saved in it.  Each of these has bytes of its own (`FrameLayout.extent?`): they follow one
another in this order (`le_of_before`), so that no two overlap (`disjoint_extents`), and all of
them end before the frame does (`le_size_of_extent?`).

A frame is smaller than the range of a word, so bytes that differ in a frame differ as
addresses (`not_occupies_of_disjoint`).
-/

namespace MxStar.Machine

def Width.bytes : Width → Nat
  | .byte => 1
  | .word => wordSize

inductive FramePart
  /-- The word for a stack argument of calls -/
  | outgoing (n : Nat)
  | object (id : SlotId)
  /-- The word of the register at a position of the list of saved ones -/
  | saved (n : Nat)
deriving DecidableEq, Repr

/-- Which of two parts is nearer to the stack pointer. -/
def FramePart.Before : FramePart → FramePart → Prop
  | .outgoing m, .outgoing n => m < n
  | .object a, .object b => a.val < b.val
  | .saved m, .saved n => m < n
  | .outgoing _, .object _ | .outgoing _, .saved _ | .object _, .saved _ => True
  | _, _ => False

theorem FramePart.before_or_before {p q : FramePart} (h : p ≠ q) : p.Before q ∨ q.Before p := by
  cases p with
  | outgoing m =>
    cases q with
    | outgoing n =>
      have hne : m ≠ n := fun heq => h (heq ▸ rfl)
      exact Nat.lt_or_gt_of_ne hne
    | object id => exact .inl trivial
    | saved n => exact .inl trivial
  | object a =>
    cases q with
    | outgoing n => exact .inr trivial
    | object b =>
      have hne : a.val ≠ b.val := fun heq => h (by cases a; cases b; simp_all)
      exact Nat.lt_or_gt_of_ne hne
    | saved n => exact .inl trivial
  | saved m =>
    cases q with
    | outgoing n => exact .inr trivial
    | object b => exact .inr trivial
    | saved n =>
      have hne : m ≠ n := fun heq => h (heq ▸ rfl)
      exact Nat.lt_or_gt_of_ne hne

namespace FrameLayout

/-- Where a part of the frame starts and ends, in bytes from the stack pointer. -/
def extent? (l : FrameLayout) (f : Frame) : FramePart → Option (Nat × Nat)
  | .outgoing n => if n < f.outgoing then some (n * wordSize, n * wordSize + wordSize) else none
  | .object id =>
    match f.objects.get? id, l.objects.get? id with
    | some object, some start => some (start, start + object.size)
    | _, _ => none
  | .saved n => (l.saved[n]?).map fun q => (q.2, q.2 + wordSize)

end FrameLayout

/-! ## Placing one after the other -/

theorem length_placeObjects (offset : Nat) (objects : List FrameObject) :
    (placeObjects offset objects).1.length = objects.length := by
  induction objects generalizing offset with
  | nil => rfl
  | cons object rest ih => simp [placeObjects, ih]

theorem le_placeObjects (offset : Nat) (objects : List FrameObject) :
    offset ≤ (placeObjects offset objects).2 := by
  induction objects generalizing offset with
  | nil => exact le_rfl
  | cons object rest ih =>
    have hstart := le_alignTo offset object.alignment
    have hrest := ih (alignTo offset object.alignment + object.size)
    simp only [placeObjects]
    omega

variable {objects : List FrameObject} {object : FrameObject} {offset i start : Nat}

theorem placeObjects_within (hobject : objects[i]? = some object)
    (hstart : (placeObjects offset objects).1[i]? = some start) :
    offset ≤ start ∧ start + object.size ≤ (placeObjects offset objects).2 := by
  induction objects generalizing offset i with
  | nil => simp at hobject
  | cons first rest ih =>
    have halign := le_alignTo offset first.alignment
    cases i with
    | zero =>
      obtain rfl : first = object := by simpa using hobject
      obtain rfl : alignTo offset first.alignment = start := by simpa [placeObjects] using hstart
      exact ⟨halign, le_placeObjects _ rest⟩
    | succ i =>
      have hrest := ih (by simpa using hobject) (by simpa [placeObjects] using hstart)
      refine ⟨?_, hrest.2⟩
      omega

theorem placeObjects_before (hij : i < j) (hobject : objects[i]? = some object)
    (hstart : (placeObjects offset objects).1[i]? = some start)
    (hobject' : objects[j]? = some object')
    (hstart' : (placeObjects offset objects).1[j]? = some start') :
    start + object.size ≤ start' := by
  induction objects generalizing offset i j with
  | nil => simp at hobject
  | cons first rest ih =>
    obtain ⟨j, rfl⟩ : ∃ k, j = k + 1 := ⟨j - 1, by omega⟩
    have hrest' : rest[j]? = some object' := by simpa using hobject'
    have hplaced' : (placeObjects (alignTo offset first.alignment + first.size) rest).1[j]? =
        some start' := by simpa [placeObjects] using hstart'
    cases i with
    | zero =>
      obtain rfl : first = object := by simpa using hobject
      obtain rfl : alignTo offset first.alignment = start := by simpa [placeObjects] using hstart
      exact (placeObjects_within hrest' hplaced').1
    | succ i =>
      exact ih (Nat.lt_of_succ_lt_succ hij) (by simpa using hobject)
        (by simpa [placeObjects] using hstart) hrest' hplaced'

theorem getElem?_placeSaved (offset : Nat) (registers : List Physical) (i : Nat) :
    (placeSaved offset registers)[i]? =
      (registers[i]?).map fun p => (p, offset + i * wordSize) := by
  induction registers generalizing offset i with
  | nil => simp [placeSaved]
  | cons p rest ih =>
    cases i with
    | zero => simp [placeSaved]
    | succ i =>
      simp only [placeSaved, List.getElem?_cons_succ, ih]
      congr
      funext q
      rw [Nat.succ_mul]
      congr 1
      omega

theorem map_fst_placeSaved (offset : Nat) (registers : List Physical) :
    (placeSaved offset registers).map Prod.fst = registers := by
  induction registers generalizing offset with
  | nil => rfl
  | cons p rest ih => simp [placeSaved, ih]

/-! ## The whole frame -/

namespace FrameLayout

variable {f : Frame} {registers : List Physical} {p q : FramePart} {a b a' b' : Nat}

/-- Where the saved registers start. -/
def top (f : Frame) : Nat :=
  alignTo (placeObjects (f.outgoing * wordSize) f.objects.entries.toList).2 wordSize

variable {l : FrameLayout} {n : Nat}

theorem extent?_outgoing : l.extent? f (.outgoing n) = some (a, b) ↔
      n < f.outgoing ∧ a = n * wordSize ∧ b = n * wordSize + wordSize := by
  simp only [extent?]
  split <;> grind

theorem extent?_object {id : SlotId}
    (h : (exact f registers).extent? f (.object id) = some (a, b)) :
    ∃ object, f.objects.entries.toList[id.val]? = some object ∧
      (placeObjects (f.outgoing * wordSize) f.objects.entries.toList).1[id.val]? = some a ∧
      b = a + object.size := by
  simp only [extent?] at h
  split at h
  · rename_i object start hobject hstart
    cases h
    refine ⟨object, ?_, ?_, rfl⟩
    · simpa [Table.get?] using hobject
    · simpa [Table.get?, exact] using hstart
  · simp at h

theorem extent?_saved (h : (exact f registers).extent? f (.saved n) = some (a, b)) :
    n < registers.length ∧ a = top f + n * wordSize ∧ b = a + wordSize := by
  simp only [extent?, exact, Option.map_eq_some_iff, getElem?_placeSaved] at h
  obtain ⟨_, ⟨p, hp, rfl⟩, heq⟩ := h
  obtain ⟨rfl, rfl⟩ := Prod.mk.inj heq
  exact ⟨(List.getElem?_eq_some_iff.mp hp).1, rfl, rfl⟩

theorem le_top (hp : ∀ n, p ≠ .saved n) (h : (exact f registers).extent? f p = some (a, b)) :
    b ≤ top f := by
  have hobjects := le_placeObjects (f.outgoing * wordSize) f.objects.entries.toList
  have htop := le_alignTo (placeObjects (f.outgoing * wordSize) f.objects.entries.toList).2 wordSize
  cases p with
  | outgoing n =>
    obtain ⟨hn, rfl, rfl⟩ := extent?_outgoing.mp h
    have hle : (n + 1) * wordSize ≤ f.outgoing * wordSize := Nat.mul_le_mul_right _ hn
    simp only [top, Nat.succ_mul] at hle ⊢
    omega
  | object id =>
    obtain ⟨object, hobject, hstart, rfl⟩ := extent?_object h
    exact (placeObjects_within hobject hstart).2.trans htop
  | saved n => exact absurd rfl (hp n)

/-- **Every part ends before the frame does.** -/
theorem le_size_of_extent? (h : (exact f registers).extent? f p = some (a, b)) :
    b ≤ (exact f registers).size := by
  have hsize : top f + registers.length * wordSize ≤ (exact f registers).size :=
    le_alignTo _ stackAlignment
  cases p with
  | saved n =>
    obtain ⟨hn, rfl, rfl⟩ := extent?_saved h
    have hle : (n + 1) * wordSize ≤ registers.length * wordSize := Nat.mul_le_mul_right _ hn
    simp only [Nat.succ_mul] at hle
    omega
  | outgoing n =>
    have := le_top (by simp) h
    omega
  | object id =>
    have := le_top (by simp) h
    omega

theorem le_of_before (hpq : p.Before q) (h : (exact f registers).extent? f p = some (a, b))
    (h' : (exact f registers).extent? f q = some (a', b')) : b ≤ a' := by
  cases q with
  | outgoing n =>
    cases p with
    | outgoing m =>
      obtain ⟨-, rfl, rfl⟩ := extent?_outgoing.mp h
      obtain ⟨-, rfl, rfl⟩ := extent?_outgoing.mp h'
      have hle : (m + 1) * wordSize ≤ n * wordSize := Nat.mul_le_mul_right _ hpq
      simp only [Nat.succ_mul] at hle
      omega
    | object id => exact hpq.elim
    | saved m => exact hpq.elim
  | object id' =>
    obtain ⟨object', hobject', hstart', rfl⟩ := extent?_object h'
    cases p with
    | outgoing m =>
      obtain ⟨hm, rfl, rfl⟩ := extent?_outgoing.mp h
      have hle : (m + 1) * wordSize ≤ f.outgoing * wordSize := Nat.mul_le_mul_right _ hm
      have hstart := (placeObjects_within hobject' hstart').1
      simp only [Nat.succ_mul] at hle
      omega
    | object id =>
      obtain ⟨object, hobject, hstart, rfl⟩ := extent?_object h
      exact placeObjects_before hpq hobject hstart hobject' hstart'
    | saved m => exact hpq.elim
  | saved n =>
    obtain ⟨-, rfl, rfl⟩ := extent?_saved h'
    cases p with
    | outgoing m =>
      have := le_top (by simp) h
      omega
    | object id =>
      have := le_top (by simp) h
      omega
    | saved m =>
      obtain ⟨-, rfl, rfl⟩ := extent?_saved h
      have hle : (m + 1) * wordSize ≤ n * wordSize := Nat.mul_le_mul_right _ hpq
      simp only [Nat.succ_mul] at hle
      omega

theorem disjoint_extents (hne : p ≠ q) (h : (exact f registers).extent? f p = some (a, b))
    (h' : (exact f registers).extent? f q = some (a', b')) : b ≤ a' ∨ b' ≤ a := by
  rcases FramePart.before_or_before hne with hbefore | hbefore
  · exact .inl (le_of_before hbefore h h')
  · exact .inr (le_of_before hbefore h' h)

theorem extent?_saved_of_getElem? (h : l.saved[n]? = some r) :
    l.extent? f (.saved n) = some (r.2, r.2 + wordSize) := by
  simp only [extent?, h, Option.map_some]

theorem map_fst_saved : (exact f registers).saved.map Prod.fst = registers :=
  map_fst_placeSaved _ registers

theorem pairwise_saved : (exact f registers).saved.Pairwise fun r r' => r.2 + wordSize ≤ r'.2 := by
  rw [List.pairwise_iff_getElem]
  intro i j hi hj hij
  exact le_of_before (show (FramePart.saved i).Before (.saved j) from hij)
    (extent?_saved_of_getElem? (List.getElem?_eq_getElem hi))
    (extent?_saved_of_getElem? (List.getElem?_eq_getElem hj))

theorem saved_le_size (h : r ∈ (exact f registers).saved) :
    r.2 + wordSize ≤ (exact f registers).size := by
  obtain ⟨n, hn⟩ := List.getElem?_of_mem h
  exact le_size_of_extent? (extent?_saved_of_getElem? hn)

theorem compute_eq_ok :
    compute f registers = .ok l ↔ l = exact f registers ∧ l.size < sizeLimit := by
  simp only [compute]
  split <;> grind

end FrameLayout

/-! ## Addresses -/

/-- The address is that of a byte from `a` up to `b`, counted from the stack pointer. -/
def Occupies (sp : Word) (a b : Nat) (x : Word) : Prop :=
  ∃ k, a ≤ k ∧ k < b ∧ x = sp + BitVec.ofNat 32 k

theorem Occupies.mono (h : Occupies sp a b x) (ha : a' ≤ a) (hb : b ≤ b') :
    Occupies sp a' b' x := by
  obtain ⟨k, hak, hkb, hx⟩ := h
  exact ⟨k, by omega, by omega, hx⟩

theorem Width.occupies_of_covers {width : Width} (h : width.Covers (sp + BitVec.ofNat 32 a) x) :
    Occupies sp a (a + width.bytes) x := by
  have hadd : ∀ k : Nat, sp + BitVec.ofNat 32 a + BitVec.ofNat 32 k =
      sp + BitVec.ofNat 32 (a + k) := by
    intro k
    rw [BitVec.ofNat_add, BitVec.add_assoc]
  cases width with
  | byte => exact ⟨a, le_rfl, Nat.lt_succ_self a, h⟩
  | word =>
    rcases h with rfl | rfl | rfl | rfl
    · exact ⟨a, le_rfl, by simp [bytes, wordSize], rfl⟩
    · exact ⟨a + 1, by omega, by simp [bytes, wordSize], hadd 1⟩
    · exact ⟨a + 2, by omega, by simp [bytes, wordSize], hadd 2⟩
    · exact ⟨a + 3, by omega, by simp [bytes, wordSize], hadd 3⟩

theorem not_occupies_of_disjoint (hb : b ≤ sizeLimit) (hb' : b' ≤ sizeLimit)
    (hdisj : b ≤ a' ∨ b' ≤ a) (h : Occupies sp a b x) : ¬ Occupies sp a' b' x := by
  rintro ⟨k', hak', hkb', rfl⟩
  obtain ⟨k, hak, hkb, hx⟩ := h
  have hmod := congrArg BitVec.toNat (add_left_cancel hx)
  simp only [BitVec.toNat_ofNat] at hmod
  simp only [sizeLimit] at hb hb'
  omega

end MxStar.Machine
