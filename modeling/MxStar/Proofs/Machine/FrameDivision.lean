import MxStar.Proofs.Machine.FrameParts
import MxStar.Proofs.Table

/-!
# A frame is divided among its parts

A frame is built by requests for objects.  Its layout puts each object at a multiple of its
alignment, gives no byte to two parts, and wastes less than one unit of stack alignment at the
top (`FrameLayout.Divides`).

Objects are placed in the order of their requests, so the place of an object depends on the
requests before it only: more requests, such as those of spilled registers, move nothing
(`placeObjects_append`).
-/

namespace MxStar.Machine

/-- Reserve objects for requests of a size and an alignment each. -/
def Frame.allocateAll (f : Frame) (requests : List (Nat × Nat)) : Frame :=
  requests.foldl (fun f request => (f.allocate request.1 request.2).2) f

def FrameObject.ofRequest (request : Nat × Nat) : FrameObject :=
  { size := max request.1 1, alignment := max request.2 1 }

theorem Frame.outgoing_allocateAll (f : Frame) (requests : List (Nat × Nat)) :
    (f.allocateAll requests).outgoing = f.outgoing := by
  induction requests generalizing f with
  | nil => rfl
  | cons request rest ih => exact ih _

theorem Frame.objects_allocateAll (f : Frame) (requests : List (Nat × Nat)) :
    (f.allocateAll requests).objects.entries.toList =
      f.objects.entries.toList ++ requests.map FrameObject.ofRequest := by
  induction requests generalizing f with
  | nil => simp [allocateAll]
  | cons request rest ih =>
    refine (ih _).trans ?_
    simp [allocate, Table.push, FrameObject.ofRequest]

/-! ## Placing objects -/

variable {objects : List FrameObject} {object : FrameObject} {i start : Nat}

theorem dvd_placeObjects (hobject : objects[i]? = some object)
    (hstart : (placeObjects offset objects).1[i]? = some start) (hpos : 0 < object.alignment) :
    object.alignment ∣ start := by
  induction objects generalizing offset i with
  | nil => simp at hobject
  | cons first rest ih =>
    cases i with
    | zero =>
      obtain rfl : first = object := by simpa using hobject
      obtain rfl : alignTo offset first.alignment = start := by simpa [placeObjects] using hstart
      exact dvd_alignTo offset first.alignment hpos
    | succ i => exact ih (by simpa using hobject) (by simpa [placeObjects] using hstart)

theorem exists_end_placeObjects (offset : Nat) (h : objects ≠ []) :
    ∃ (i : Nat) (object : FrameObject) (start : Nat), objects[i]? = some object ∧
      (placeObjects offset objects).1[i]? = some start ∧
      (placeObjects offset objects).2 = start + object.size := by
  induction objects generalizing offset with
  | nil => exact absurd rfl h
  | cons first rest ih =>
    cases rest with
    | nil => exact ⟨0, first, alignTo offset first.alignment, rfl, rfl, rfl⟩
    | cons second rest =>
      obtain ⟨i, object, start, hobject, hstart, hend⟩ :=
        ih (alignTo offset first.alignment + first.size) (by simp)
      exact ⟨i + 1, object, start, hobject, by simpa [placeObjects] using hstart, hend⟩

theorem placeObjects_append (offset : Nat) (objects more : List FrameObject) :
    (placeObjects offset (objects ++ more)).1 = (placeObjects offset objects).1 ++
      (placeObjects (placeObjects offset objects).2 more).1 := by
  induction objects generalizing offset with
  | nil => rfl
  | cons first rest ih => simp [placeObjects, ih]

/-! ## The division of a frame -/

namespace FrameLayout

variable {f : Frame} {registers : List Physical}

/-- Everything in a frame has a place of its own, and the frame is no larger than it has to be. -/
structure Divides (l : FrameLayout) (f : Frame) (registers : List Physical) : Prop where
  /-- Every object has a place, at a multiple of its alignment -/
  objects : ∀ id object, f.objects.get? id = some object →
    ∃ start, l.objects.get? id = some start ∧ object.alignment ∣ start
  /-- Every register that is saved has a place -/
  registers : l.saved.map Prod.fst = registers
  disjoint : ∀ p q a b a' b', p ≠ q → l.extent? f p = some (a, b) →
    l.extent? f q = some (a', b') → b ≤ a' ∨ b' ≤ a
  savedAligned : ∀ n a b, l.extent? f (.saved n) = some (a, b) → wordSize ∣ a
  savedAbove : ∀ id n a b a' b', l.extent? f (.object id) = some (a, b) →
    l.extent? f (.saved n) = some (a', b') → b ≤ a'
  within : ∀ p a b, l.extent? f p = some (a, b) → b ≤ l.size
  aligned : stackAlignment ∣ l.size
  /-- An empty frame takes no space, and any other one ends near its last part -/
  tight : ((∀ p, l.extent? f p = none) ∧ l.size = 0) ∨
    ∃ p a b, l.extent? f p = some (a, b) ∧ l.size < b + stackAlignment

theorem extent?_exact_object (hobject : f.objects.entries.toList[i]? = some object)
    (hstart : (placeObjects (f.outgoing * wordSize) f.objects.entries.toList).1[i]? = some start) :
    (exact f registers).extent? f (.object ⟨i⟩) = some (start, start + object.size) := by
  have hobject' : f.objects.get? ⟨i⟩ = some object := by simpa [Table.get?] using hobject
  have hstart' : (exact f registers).objects.get? ⟨i⟩ = some start := by
    simpa [Table.get?, exact] using hstart
  simp only [extent?, hobject', hstart']

/-- Rounding to words before rounding to the stack alignment changes nothing. -/
theorem alignTo_wordSize_lt (offset : Nat) :
    alignTo (alignTo offset wordSize) stackAlignment < offset + stackAlignment := by
  have hdvd : stackAlignment ∣ alignTo offset stackAlignment := dvd_alignTo _ _ (by decide)
  have hword : alignTo offset wordSize ≤ alignTo offset stackAlignment :=
    alignTo_le (le_alignTo _ _) (dvd_trans (by decide) hdvd)
  exact (alignTo_le hword hdvd).trans_lt (alignTo_lt offset stackAlignment (by decide))

theorem tight_exact :
    ((∀ p, (exact f registers).extent? f p = none) ∧ (exact f registers).size = 0) ∨
      ∃ p a b, (exact f registers).extent? f p = some (a, b) ∧
        (exact f registers).size < b + stackAlignment := by
  by_cases hregs : registers = []
  · subst hregs
    have hsize : (exact f []).size = alignTo (top f) stackAlignment := rfl
    have htop := alignTo_wordSize_lt
      (placeObjects (f.outgoing * wordSize) f.objects.entries.toList).2
    by_cases hobjects : f.objects.entries.toList = []
    · -- without objects the words for stack arguments come last
      cases houtgoing : f.outgoing with
      | zero =>
        refine .inl ⟨fun p => ?_, by simp [hsize, top, hobjects, houtgoing, placeObjects, alignTo,
          wordSize, stackAlignment]⟩
        cases p with
        | outgoing n => simp [extent?, houtgoing]
        | object id =>
          have hnone : f.objects.get? id = none := by
            simp [Table.get?, Array.toList_eq_nil_iff.mp hobjects]
          simp [extent?, hnone]
        | saved n => simp [extent?, exact, placeSaved]
      | succ n =>
        refine .inr ⟨.outgoing n, _, _, extent?_outgoing.mpr ⟨by omega, rfl, rfl⟩, ?_⟩
        rw [hsize]
        rw [hobjects, houtgoing, placeObjects, Nat.succ_mul] at htop
        rw [top, hobjects, houtgoing, placeObjects, Nat.succ_mul]
        exact htop
    · obtain ⟨i, object, start, hobject, hstart, hend⟩ :=
        exists_end_placeObjects (f.outgoing * wordSize) hobjects
      refine .inr ⟨.object ⟨i⟩, start, start + object.size, extent?_exact_object hobject hstart, ?_⟩
      rw [hsize, ← hend]
      exact htop
  · obtain ⟨n, hn⟩ : ∃ n, registers.length = n + 1 :=
      Nat.exists_eq_add_one.mpr (List.length_pos_iff.mpr hregs)
    have hlt : n < (exact f registers).saved.length := by
      rw [← List.length_map (f := Prod.fst), map_fst_saved, hn]
      exact Nat.lt_succ_self n
    have hplace := extent?_saved_of_getElem? (f := f) (List.getElem?_eq_getElem hlt)
    obtain ⟨-, hstart, -⟩ := extent?_saved hplace
    refine .inr ⟨.saved n, _, _, hplace, ?_⟩
    have hsize : (exact f registers).size < top f + registers.length * wordSize + stackAlignment :=
      alignTo_lt _ stackAlignment (by decide)
    rw [hn, Nat.succ_mul, ← Nat.add_assoc] at hsize
    rw [hstart]
    exact hsize

theorem divides_exact (hpositive : ∀ id object, f.objects.get? id = some object →
    0 < object.alignment) : (exact f registers).Divides f registers where
  objects := by
    intro id object hobject
    have hlt := Table.lt_size_of_get? hobject
    have hplaced : id.val <
        (placeObjects (f.outgoing * wordSize) f.objects.entries.toList).1.length := by
      rw [length_placeObjects]
      simpa [Table.size] using hlt
    have hstart := List.getElem?_eq_getElem hplaced
    have hplace : (exact f registers).objects.get? id = _ := Array.getElem?_toList.symm.trans hstart
    refine ⟨_, hplace, ?_⟩
    exact dvd_placeObjects (Array.getElem?_toList.trans hobject) hstart
      (hpositive id object hobject)
  registers := map_fst_saved
  disjoint := fun _ _ _ _ _ _ hne h h' => disjoint_extents hne h h'
  savedAligned := by
    intro n a b h
    obtain ⟨-, rfl, -⟩ := extent?_saved h
    exact (dvd_alignTo _ wordSize (by decide)).add (Nat.dvd_mul_left _ _)
  savedAbove := fun id n _ _ _ _ h h' =>
    le_of_before (p := .object id) (q := .saved n) trivial h h'
  within := fun _ _ _ h => le_size_of_extent? h
  aligned := dvd_alignTo _ stackAlignment (by decide)
  tight := tight_exact

/-- **A frame is divided among its parts, and further objects move none of them**: objects
stand at multiples of their alignments, no two parts share a byte, saved registers stand in
words above the objects, and the frame ends less than one unit of stack alignment behind its
last part. -/
theorem divides_of_compute (outgoing : Nat) (requests : List (Nat × Nat))
    (registers : List Physical) (l : FrameLayout)
    (h : compute (Frame.allocateAll { outgoing } requests) registers = .ok l) :
    l.Divides (Frame.allocateAll { outgoing } requests) registers ∧ ∀ more registers' l',
        compute (Frame.allocateAll { outgoing } (requests ++ more)) registers' = .ok l' →
          ∀ id start, l.objects.get? id = some start → l'.objects.get? id = some start := by
  obtain ⟨rfl, -⟩ := compute_eq_ok.mp h
  refine ⟨divides_exact fun id object hobject => ?_,
    fun more registers' l' h' id start hstart => ?_⟩
  · have hmem : object ∈ (Frame.allocateAll { outgoing } requests).objects.entries.toList :=
      List.mem_of_getElem? (by simpa [Table.get?] using hobject)
    rw [Frame.objects_allocateAll] at hmem
    obtain ⟨request, -, rfl⟩ := List.mem_map.mp hmem
    exact Nat.lt_of_lt_of_le Nat.one_pos (Nat.le_max_right _ _)
  · obtain ⟨rfl, -⟩ := compute_eq_ok.mp h'
    simp only [Table.get?, exact, Frame.objects_allocateAll, Frame.outgoing_allocateAll,
      List.map_append, ← List.append_assoc, placeObjects_append, List.getElem?_toArray] at hstart ⊢
    exact List.getElem?_append_left (List.getElem?_eq_some_iff.mp hstart).1 ▸ hstart

/-- Two words for stack arguments, a byte, a word and an object whose alignment is no power of
two, under two saved registers; a spilled word comes on top of them later. -/
theorem divides_of_compute_mixed :
    ∃ l l', compute (Frame.allocateAll { outgoing := 2 } [(1, 1), (4, 4), (5, 6)]) [.ra, .s0] =
        .ok l ∧
      l.Divides (Frame.allocateAll { outgoing := 2 } [(1, 1), (4, 4), (5, 6)]) [.ra, .s0] ∧
      compute (Frame.allocateAll { outgoing := 2 } ([(1, 1), (4, 4), (5, 6)] ++ [(4, 4)]))
        [.ra, .s0, .s1] = .ok l' ∧ l.objects.get? ⟨2⟩ = some 18 ∧
          l'.objects.get? ⟨2⟩ = some 18 := by
  obtain ⟨hdivides, hmore⟩ := divides_of_compute 2 [(1, 1), (4, 4), (5, 6)] [.ra, .s0] _ rfl
  exact ⟨_, _, rfl, hdivides, rfl, rfl, hmore [(4, 4)] [.ra, .s0, .s1] _ rfl ⟨2⟩ 18 rfl⟩

end FrameLayout

end MxStar.Machine
