import MxStar.Machine.Spill
import MxStar.Proofs.Machine.Run

/-!
# The code that spilling leaves

Spilling gives each register an object of its own in the frame, and each
instruction temporaries of its own for the spilled registers it names.  The
temporaries are numbered from the function's counter on, so they are none of the
registers the code named before, as long as the numbers fit a position
(`stands_temporaries`).  That is the only place where the width of a position
matters.

The code that is left has its terminators at the end of blocks again, and names
no register from the new counter on.
-/

namespace MxStar.Machine

variable {slots : SpillSlots} {v : VirtualId} {registers : List VirtualId}

/-! ## Objects for spilled registers -/

/-- Each spilled register has an object of its own among the new ones. -/
structure SlotsFresh (slots : SpillSlots) (lower upper : Nat) : Prop where
  lower_le : ∀ (v : VirtualId) (id : SlotId), slots[v]? = some id → lower ≤ id.val
  lt_upper : ∀ (v : VirtualId) (id : SlotId), slots[v]? = some id → id.val < upper
  injective : ∀ (v w : VirtualId) (id : SlotId),
    slots[v]? = some id → slots[w]? = some id → v = w

variable {temporaries : List (VirtualId × VirtualId)}

theorem slotsFresh_insert {objects : Table .slot FrameObject}
    (h : SlotsFresh slots lower objects.size) (hlower : lower ≤ objects.size) (v : VirtualId) :
    SlotsFresh (slots.insert v objects.next) lower (objects.size + 1) where
  lower_le := by
    intro w id hw
    rw [Std.ExtTreeMap.getElem?_insert] at hw
    split at hw
    · cases hw
      exact hlower
    · exact h.lower_le w id hw
  lt_upper := by
    intro w id hw
    rw [Std.ExtTreeMap.getElem?_insert] at hw
    split at hw
    · cases hw
      exact Nat.lt_succ_self _
    · exact Nat.lt_succ_of_lt (h.lt_upper w id hw)
  injective := by
    intro w w' id hw hw'
    rw [Std.ExtTreeMap.getElem?_insert] at hw hw'
    split at hw
    · rename_i hv
      split at hw'
      · rename_i hv'
        rw [← Std.compare_eq_iff_eq.mp hv, Std.compare_eq_iff_eq.mp hv']
      · cases hw
        exact absurd (h.lt_upper w' _ hw') (Nat.lt_irrefl _)
    · split at hw'
      · cases hw'
        exact absurd (h.lt_upper w _ hw) (Nat.lt_irrefl _)
      · exact h.injective w w' id hw hw'

theorem allocateSlots_concat (frame : Frame) (registers : List VirtualId) (v : VirtualId) :
    allocateSlots frame (registers ++ [v]) =
      (((allocateSlots frame registers).1.allocate wordSize wordSize).2,
        (allocateSlots frame registers).2.insert v
          ((allocateSlots frame registers).1.allocate wordSize wordSize).1) :=
  List.foldl_append

theorem allocateSlots_spec (frame : Frame) (registers : List VirtualId) :
    frame.objects.size ≤ (allocateSlots frame registers).1.objects.size ∧
      SlotsFresh (allocateSlots frame registers).2 frame.objects.size
        (allocateSlots frame registers).1.objects.size := by
  induction registers using List.reverseRecOn with
  | nil =>
    rw [allocateSlots, List.foldl_nil]
    exact ⟨le_rfl, by simp, by simp, by simp⟩
  | append_singleton registers v ih =>
    obtain ⟨hle, hfresh⟩ := ih
    simp only [allocateSlots_concat, Frame.allocate, Table.size_push]
    exact ⟨by omega, slotsFresh_insert hfresh hle v⟩

/-! ## Temporaries -/

theorem nodup_eraseDups {α : Type} [BEq α] [LawfulBEq α] (list : List α) :
    list.eraseDups.Nodup := by
  induction hn : list.length using Nat.strong_induction_on generalizing list with
  | _ n ih =>
    cases list with
    | nil => simp
    | cons a rest =>
      have hlt : (rest.filter fun b => !b == a).length < n := by
        have := List.length_filter_le (fun b => !b == a) rest
        simp only [List.length_cons] at hn
        omega
      rw [List.eraseDups_cons, List.nodup_cons, List.mem_eraseDups]
      exact ⟨by simp, ih _ hlt _ rfl⟩

namespace Instr

variable {i : Instr} {slots : SpillSlots}

theorem virtual_mem_reads :
    .virtual v ∈ i.reads ↔ (Register.virtual v, Access.use) ∈ i.operands := by
  cases i with
  | ret value => cases value <;> simp [reads, operands]
  | call symbol arguments =>
    simp only [reads, operands, List.not_mem_nil, iff_false]
    intro h
    obtain ⟨p, -, hp⟩ := List.mem_map.mp h
    simp at hp
  | _ => simp [reads, operands]

theorem virtual_mem_writes :
    .virtual v ∈ i.writes ↔ (Register.virtual v, Access.define) ∈ i.operands := by
  cases i with
  | _ => simp [writes, operands]

theorem operands_mapRegisters (f : Register → Register) :
    (i.mapRegisters f).operands = i.operands.map fun (r, access) => (f r, access) := by
  cases i <;> rfl

theorem mem_spilledOperands : v ∈ i.spilledOperands slots accesses ↔
      v ∈ slots ∧ ∃ access ∈ accesses, (Register.virtual v, access) ∈ i.operands := by
  simp only [spilledOperands, List.mem_eraseDups, List.mem_filterMap, List.mem_filter,
    decide_eq_true_eq, Prod.exists, Option.filter_eq_some_iff, Std.ExtTreeMap.contains_iff_mem]
  constructor
  · rintro ⟨r, access, ⟨hmem, haccess⟩, hv, hslot⟩
    cases r with
    | physical p => simp [Register.virtual?] at hv
    | virtual w =>
      obtain rfl : w = v := by simpa [Register.virtual?] using hv
      exact ⟨hslot, access, haccess, hmem⟩
  · rintro ⟨hslot, access, haccess, hmem⟩
    exact ⟨.virtual v, access, ⟨hmem, haccess⟩, rfl, hslot⟩

theorem nodup_spilledOperands (accesses : List Access) : (i.spilledOperands slots accesses).Nodup :=
  nodup_eraseDups _

theorem spilledOperands_define_eq_nil (h : ∀ v ∈ slots, .virtual v ∉ i.writes) :
    i.spilledOperands slots [.define] = [] := by
  rw [List.eq_nil_iff_forall_not_mem]
  intro v hv
  rw [mem_spilledOperands] at hv
  obtain ⟨hslot, access, haccess, hmem⟩ := hv
  obtain rfl : access = .define := by simpa using haccess
  exact h v hslot (virtual_mem_writes.mpr hmem)

theorem spilledOperands_define_eq_singleton (hv : v ∈ slots)
    (h : i.writes = [.virtual v]) : i.spilledOperands slots [.define] = [v] := by
  have hmem : ∀ w, w ∈ i.spilledOperands slots [.define] ↔ w = v := by
    intro w
    rw [mem_spilledOperands]
    simp only [List.mem_singleton, exists_eq_left, ← virtual_mem_writes, h]
    constructor
    · rintro ⟨-, hw⟩
      exact Register.virtual.inj hw
    · rintro rfl
      exact ⟨hv, rfl⟩
  have hnodup : (i.spilledOperands slots [.define]).Nodup := nodup_spilledOperands _
  exact List.perm_singleton.mp ((List.perm_ext_iff_of_nodup hnodup (List.nodup_singleton v)).mpr
    (by simpa using hmem))

theorem lookup_zipIdx_ofNat (list : List VirtualId) (next start : Nat) (v : VirtualId) :
    ((list.zipIdx start).map fun (w, k) => (w, (Index.ofNat (next + k) : VirtualId))).lookup v =
      (list.idxOf? v).map fun k => .ofNat (next + (start + k)) := by
  induction list generalizing start with
  | nil => simp
  | cons w rest ih =>
    simp only [List.zipIdx_cons, List.map_cons, List.lookup_cons, List.idxOf?_cons, ih]
    by_cases hw : w = v
    · subst hw
      simp
    · have hvw : (v == w) = false := beq_false_of_ne fun h => hw h.symm
      have hwv : (w == v) = false := beq_false_of_ne hw
      simp only [hvw, hwv, Bool.false_eq_true, if_false, Option.map_map]
      congr 1
      funext k
      simp only [Function.comp_apply]
      congr 1
      omega

theorem lookup_temporaries (next : Nat) (v : VirtualId) : (i.temporaries slots next).lookup v =
      ((i.spilledOperands slots [.use, .define]).idxOf? v).map fun k => .ofNat (next + k) := by
  simpa [temporaries] using lookup_zipIdx_ofNat (i.spilledOperands slots [.use, .define]) next 0 v

end Instr

/-- A renaming that gives the registers of a list numbers from `lower` on, each a
number of its own, and leaves the others alone. -/
structure Stands (lower : Nat) (list : List VirtualId) (rename : Register → Register) : Prop where
  physical : ∀ p, rename (.physical p) = .physical p
  other : ∀ v, v ∉ list → rename (.virtual v) = .virtual v
  fresh : ∀ v ∈ list, ∃ t : VirtualId, rename (.virtual v) = .virtual t ∧ lower ≤ t.val
  injective : ∀ v ∈ list, ∀ w ∈ list, rename (.virtual v) = rename (.virtual w) → v = w

variable {i : Instr} {next : Nat} {code : List Instr}

theorem renameBy_temporaries (hlimit : next + (i.temporaries slots next).length ≤ sizeLimit)
    (hv : v ∈ i.spilledOperands slots [.use, .define]) :
    ∃ k, (i.spilledOperands slots [.use, .define])[k]? = some v ∧
      renameBy (i.temporaries slots next) (.virtual v) = .virtual ⟨next + k⟩ := by
  obtain ⟨k, hk⟩ := Option.isSome_iff_exists.mp (List.isSome_idxOf?.mpr hv)
  obtain ⟨hlt, hget, -⟩ := List.idxOf?_eq_some_iff.mp hk
  refine ⟨k, List.getElem?_eq_some_iff.mpr ⟨hlt, hget⟩, ?_⟩
  have hlen : (i.temporaries slots next).length =
      (i.spilledOperands slots [.use, .define]).length := by
    simp [Instr.temporaries]
  simp only [renameBy, Instr.lookup_temporaries, hk, Option.map_some, Option.getD_some, Index.ofNat]
  rw [Nat.mod_eq_of_lt (by omega)]

/-- **Temporaries are new registers**, unless their numbers pass the width of a position. -/
theorem stands_temporaries (i : Instr) (slots : SpillSlots) (h : lower ≤ next)
    (hlimit : next + (i.temporaries slots next).length ≤ sizeLimit) :
    Stands lower (i.spilledOperands slots [.use, .define])
      (renameBy (i.temporaries slots next)) where
  physical := fun p => rfl
  other := by
    intro v hv
    simp [renameBy, Instr.lookup_temporaries, List.idxOf?_eq_none_iff.mpr hv]
  fresh := by
    intro v hv
    obtain ⟨k, -, heq⟩ := renameBy_temporaries hlimit hv
    exact ⟨_, heq, h.trans (Nat.le_add_right next k)⟩
  injective := by
    intro v hv w hw heq
    obtain ⟨k, hk, hv'⟩ := renameBy_temporaries hlimit hv
    obtain ⟨m, hm, hw'⟩ := renameBy_temporaries hlimit hw
    have hval := congrArg Index.val (Register.virtual.inj (hv'.symm.trans (heq.trans hw')))
    obtain rfl : k = m := Nat.add_left_cancel hval
    exact Option.mem_unique hk hm

theorem mem_slotTemporaries {id : SlotId} :
    (r, id) ∈ slotTemporaries slots temporaries registers ↔
      ∃ v ∈ registers, slots[v]? = some id ∧ renameBy temporaries (.virtual v) = r := by
  simp only [slotTemporaries, List.mem_filterMap]
  refine exists_congr fun v => and_congr_right fun _ => ?_
  cases hv : slots[v]? with
  | none => simp
  | some slot => simp [and_comm, eq_comm]

theorem nodup_slotTemporaries (hnodup : registers.Nodup)
    (h : ∀ v ∈ registers, ∀ w ∈ registers, renameBy temporaries (.virtual v) = renameBy temporaries
      (.virtual w) → v = w) :
    ((slotTemporaries slots temporaries registers).map Prod.fst).Nodup := by
  rw [List.Nodup, List.pairwise_map, slotTemporaries, List.pairwise_filterMap]
  apply hnodup.imp_of_mem
  intro v w hv hw hne p hp q hq
  cases hv' : slots[v]? with
  | none => simp [hv'] at hp
  | some slot =>
    cases hw' : slots[w]? with
    | none => simp [hw'] at hq
    | some slot' =>
      obtain rfl : (renameBy temporaries (.virtual v), slot) = p := by simpa [hv'] using hp
      obtain rfl : (renameBy temporaries (.virtual w), slot') = q := by simpa [hw'] using hq
      intro heq
      exact hne (h v hv w hw heq)

theorem mem_named (accesses : List Access) (haccesses : accesses ⊆ [.use, .define])
    (h : v ∈ i.spilledOperands slots accesses) : v ∈ i.spilledOperands slots [.use, .define] := by
  rw [Instr.mem_spilledOperands] at h ⊢
  obtain ⟨hslot, access, haccess, hmem⟩ := h
  exact ⟨hslot, access, haccesses haccess, hmem⟩

/-! ## Whole functions -/

theorem le_snd_spillCode (slots : SpillSlots) (next : Nat) (code : List Instr) :
    next ≤ (spillCode slots next code).2 := by
  induction code generalizing next with
  | nil => exact le_rfl
  | cons i rest ih =>
    have := ih (next + (i.temporaries slots next).length)
    simp only [spillCode]
    omega

theorem length_spillBlocks (slots : SpillSlots) (next : Nat) (blocks : List Block) :
    (spillBlocks slots next blocks).1.length = blocks.length := by
  induction blocks generalizing next with
  | nil => rfl
  | cons block rest ih => simp [spillBlocks, ih]

theorem le_snd_spillBlocks (slots : SpillSlots) (next : Nat) (blocks : List Block) :
    next ≤ (spillBlocks slots next blocks).2 := by
  induction blocks generalizing next with
  | nil => exact le_rfl
  | cons block rest ih =>
    simp only [spillBlocks]
    exact (le_snd_spillCode slots next block.code).trans (ih _)

theorem getElem?_spillBlocks (slots : SpillSlots) (next : Nat) {blocks : List Block} {k : Nat}
    (h : blocks[k]? = some block) :
    ∃ start, next ≤ start ∧
      (spillCode slots start block.code).2 ≤ (spillBlocks slots next blocks).2 ∧
      (spillBlocks slots next blocks).1[k]? =
        some { block with code := (spillCode slots start block.code).1 } := by
  induction blocks generalizing next k with
  | nil => simp at h
  | cons first rest ih =>
    cases k with
    | zero =>
      obtain rfl : first = block := by simpa using h
      exact ⟨next, le_rfl, le_snd_spillBlocks slots _ rest, by simp [spillBlocks]⟩
    | succ k =>
      obtain ⟨start, hstart, hend, hget⟩ := ih (spillCode slots next first.code).2
        (by simpa using h)
      exact ⟨start, (le_snd_spillCode slots next first.code).trans hstart, hend,
        by simpa [spillBlocks] using hget⟩

theorem exists_of_mem_spillCode (h : j ∈ (spillCode slots next code).1) :
    ∃ i ∈ code, ∃ start, next ≤ start ∧
      start + (i.temporaries slots start).length ≤ (spillCode slots next code).2 ∧
      j ∈ i.spill slots start := by
  induction code generalizing next with
  | nil => simp [spillCode] at h
  | cons i rest ih =>
    simp only [spillCode, List.mem_append] at h
    rcases h with h | h
    · exact ⟨i, .head _, next, le_rfl, le_snd_spillCode slots _ rest, h⟩
    · obtain ⟨i', hi', start, hstart, hend, hj⟩ := ih h
      exact ⟨i', .tail _ hi', start, by omega, hend, hj⟩

theorem exists_of_virtual_mem_spill (hj : j ∈ i.spill slots next)
    (hw : .virtual w ∈ j.reads ∨ .virtual w ∈ j.writes) :
    ∃ v, (.virtual v ∈ i.reads ∨ .virtual v ∈ i.writes) ∧
      renameBy (i.temporaries slots next) (.virtual v) = .virtual w := by
  simp only [Instr.spill, List.mem_append, List.mem_map, List.mem_singleton, Prod.exists] at hj
  rcases hj with (⟨r, id, hr, rfl⟩ | rfl) | ⟨r, id, hr, rfl⟩
  · obtain ⟨v, hv, -, rfl⟩ := mem_slotTemporaries.mp hr
    obtain ⟨-, access, haccess, hmem⟩ := Instr.mem_spilledOperands.mp hv
    obtain rfl : access = .use := by simpa using haccess
    refine ⟨v, Or.inl (Instr.virtual_mem_reads.mpr hmem), ?_⟩
    simpa [Instr.reads, Instr.writes, Instr.operands, eq_comm] using hw
  · have hmap : ∀ access, (Register.virtual w, access) ∈
        (i.mapRegisters (renameBy (i.temporaries slots next))).operands →
        ∃ v, (Register.virtual v, access) ∈ i.operands ∧
          renameBy (i.temporaries slots next) (.virtual v) = .virtual w := by
      intro access h
      rw [Instr.operands_mapRegisters, List.mem_map] at h
      obtain ⟨⟨q, access'⟩, hq, heq⟩ := h
      obtain ⟨hname, rfl⟩ := Prod.mk.inj heq
      cases q with
      | physical p => simp [renameBy] at hname
      | virtual v => exact ⟨v, hq, hname⟩
    rcases hw with hw | hw
    · obtain ⟨v, hv, hname⟩ := hmap .use (Instr.virtual_mem_reads.mp hw)
      exact ⟨v, Or.inl (Instr.virtual_mem_reads.mpr hv), hname⟩
    · obtain ⟨v, hv, hname⟩ := hmap .define (Instr.virtual_mem_writes.mp hw)
      exact ⟨v, Or.inr (Instr.virtual_mem_writes.mpr hv), hname⟩
  · obtain ⟨v, hv, -, rfl⟩ := mem_slotTemporaries.mp hr
    obtain ⟨-, access, haccess, hmem⟩ := Instr.mem_spilledOperands.mp hv
    obtain rfl : access = .define := by simpa using haccess
    refine ⟨v, Or.inr (Instr.virtual_mem_writes.mpr hmem), ?_⟩
    simpa [Instr.reads, Instr.writes, Instr.operands, eq_comm] using hw

theorem terminatorLast_append (h : ∀ i ∈ code, i.isTerminator = false)
    (hrest : TerminatorLast rest) : TerminatorLast (code ++ rest) := by
  induction code with
  | nil => exact hrest
  | cons i tail ih =>
    refine ⟨fun hi => ?_, ih fun j hj => h j (.tail _ hj)⟩
    simp [h i List.mem_cons_self] at hi

theorem terminatorLast_spillCode (h : TerminatorLast code) :
    TerminatorLast (spillCode slots next code).1 := by
  induction code generalizing next with
  | nil => trivial
  | cons i rest ih =>
    have hmapped : ∀ f, (i.mapRegisters f).isTerminator = i.isTerminator := by
      intro f
      cases i <;> rfl
    simp only [spillCode, Instr.spill, List.append_assoc, List.cons_append, List.nil_append]
    apply terminatorLast_append
    · intro j hj
      obtain ⟨p, -, rfl⟩ := List.mem_map.mp hj
      rfl
    · refine ⟨fun hi => ?_, terminatorLast_append ?_ (ih h.2)⟩
      · rw [hmapped] at hi
        have hdefine : i.spilledOperands slots [.define] = [] :=
          Instr.spilledOperands_define_eq_nil (by simp [Instr.writes_of_isTerminator hi])
        rw [hdefine, h.1 hi]
        rfl
      · intro j hj
        obtain ⟨p, -, rfl⟩ := List.mem_map.mp hj
        rfl

namespace Function

variable {f : Function}

theorem mem_inUse : v ∈ f.inUse ↔ ∃ block ∈ f.blocks.entries.toList, ∃ i ∈ block.code,
      .virtual v ∈ i.reads ∨ .virtual v ∈ i.writes := by
  have hmention : ∀ i : Instr, v ∈ (i.uses ++ i.defs).filterMap Register.virtual? ↔
      .virtual v ∈ i.reads ∨ .virtual v ∈ i.writes := by
    intro i
    simp only [List.mem_filterMap, List.mem_append, Instr.mem_uses, Instr.mem_defs]
    constructor
    · rintro ⟨r, hr, hv⟩
      cases r with
      | physical p => simp [Register.virtual?] at hv
      | virtual w =>
        obtain rfl : w = v := by simpa [Register.virtual?] using hv
        exact hr.imp And.left And.left
    · intro h
      exact ⟨.virtual v, h.imp (⟨·, rfl⟩) (⟨·, rfl⟩), rfl⟩
  simp only [inUse, mentions, code, Std.ExtTreeSet.mem_ofList, List.contains_iff_mem,
    List.mem_flatMap, hmention]
  constructor
  · rintro ⟨i, ⟨block, hblock, hi⟩, h⟩
    exact ⟨block, hblock, i, hi, h⟩
  · rintro ⟨block, hblock, i, hi, h⟩
    exact ⟨i, ⟨block, hblock, hi⟩, h⟩

theorem get?_spill (registers : List VirtualId) {b : BlockId} (hb : f.blocks.get? b = some block) :
    ∃ start, f.virtuals ≤ start ∧
      (spillCode (allocateSlots f.frame registers).2 start block.code).2 ≤
        (f.spill registers).virtuals ∧
      (f.spill registers).blocks.get? b = some { block with
          code := (spillCode (allocateSlots f.frame registers).2 start block.code).1 } := by
  have hb' : f.blocks.entries.toList[b.val]? = some block := by simpa [Table.get?] using hb
  obtain ⟨start, hstart, hend, hget⟩ :=
    getElem?_spillBlocks (allocateSlots f.frame registers).2 f.virtuals hb'
  refine ⟨start, hstart, hend, ?_⟩
  simpa [Function.spill, Table.get?] using hget

theorem get?_spill_eq_none (hb : f.blocks.get? b = none) :
    (f.spill registers).blocks.get? b = none := by
  simp only [Table.get?, Array.getElem?_eq_none_iff] at hb
  simp only [Function.spill, Table.get?, List.getElem?_toArray, List.getElem?_eq_none_iff,
    length_spillBlocks]
  simpa using hb

theorem exists_of_mem_spill (h : block' ∈ (f.spill registers).blocks.entries.toList) :
    ∃ block ∈ f.blocks.entries.toList, ∃ start, f.virtuals ≤ start ∧
      (spillCode (allocateSlots f.frame registers).2 start block.code).2 ≤
        (f.spill registers).virtuals ∧
      block'.code = (spillCode (allocateSlots f.frame registers).2 start block.code).1 := by
  obtain ⟨k, hk⟩ := List.mem_iff_getElem?.mp h
  have hget' : (f.spill registers).blocks.get? ⟨k⟩ = some block' := by simpa [Table.get?] using hk
  cases hb : f.blocks.get? ⟨k⟩ with
  | none => simp [get?_spill_eq_none hb] at hget'
  | some block =>
    obtain ⟨start, hstart, hend, hget⟩ := get?_spill registers hb
    obtain rfl := Option.mem_unique hget hget'
    exact ⟨block, Array.mem_toList_iff.mpr (Array.mem_of_getElem? hb), start, hstart, hend, rfl⟩

theorem virtuals_le_spill (f : Function) (registers : List VirtualId) :
    f.virtuals ≤ (f.spill registers).virtuals :=
  le_snd_spillBlocks _ _ _

theorem objects_le_spill (f : Function) (registers : List VirtualId) :
    f.frame.objects.size ≤ (f.spill registers).frame.objects.size :=
  (allocateSlots_spec f.frame registers).1

theorem terminatorsLast_spill (h : f.TerminatorsLast) (registers : List VirtualId) :
    (f.spill registers).TerminatorsLast := by
  intro block' hblock'
  obtain ⟨block, hblock, start, -, -, hcode⟩ := exists_of_mem_spill hblock'
  rw [hcode]
  exact terminatorLast_spillCode (h block hblock)

theorem lt_virtuals_spill (h : ∀ v ∈ f.inUse, v.val < f.virtuals)
    (hlimit : (f.spill registers).virtuals ≤ sizeLimit) :
    ∀ v ∈ (f.spill registers).inUse, v.val < (f.spill registers).virtuals := by
  intro w hw
  obtain ⟨block', hblock', j, hj, hw⟩ := mem_inUse.mp hw
  obtain ⟨block, hblock, start, -, hend, hcode⟩ := exists_of_mem_spill hblock'
  rw [hcode] at hj
  obtain ⟨i, hi, next, -, hnext, hj⟩ := exists_of_mem_spillCode hj
  obtain ⟨v, hv, hname⟩ := exists_of_virtual_mem_spill hj hw
  by_cases hspilled : v ∈ i.spilledOperands (allocateSlots f.frame registers).2 [.use, .define]
  · obtain ⟨k, hk, hname'⟩ := renameBy_temporaries (hnext.trans (hend.trans hlimit)) hspilled
    obtain rfl : ⟨next + k⟩ = w := Register.virtual.inj (hname'.symm.trans hname)
    have hlen : k < (i.temporaries (allocateSlots f.frame registers).2 next).length := by
      simpa [Instr.temporaries] using (List.getElem?_eq_some_iff.mp hk).1
    show next + k < _
    omega
  · have hsame : renameBy (i.temporaries (allocateSlots f.frame registers).2 next) (.virtual v) =
        .virtual v := by
      simp [renameBy, Instr.lookup_temporaries, List.idxOf?_eq_none_iff.mpr hspilled]
    obtain rfl : v = w := Register.virtual.inj (hsame.symm.trans hname)
    exact (h v (mem_inUse.mpr ⟨block, hblock, i, hi, hv⟩)).trans_le (virtuals_le_spill f registers)

end Function

end MxStar.Machine
