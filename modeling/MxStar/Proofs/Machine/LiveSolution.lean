import MxStar.Machine.Liveness
import MxStar.Proofs.Table

/-!
# The queue of blocks ends with a solution

The live sets of all blocks satisfy the two equations of liveness once the
queue has run empty, and it does run empty within `Liveness.visitBound` visits.

The invariant behind this has two parts.  Blocks that are not queued satisfy
their equations (`Progress.settled`), because a block is queued whenever the
live-in set of one of its successors changed.  And no live-in set ever shrinks
(`Progress.rising`), so a visit that changes one makes it larger.  As every set
stays within the registers that the function reads, that can happen only so
often.
-/

namespace MxStar

namespace Machine

/-! ## Edges -/

namespace Function

theorem mem_edgeList {f : Function} {b target : BlockId} :
    (b, target) ∈ f.edgeList ↔ ∃ block, f.blocks.get? b = some block ∧ target ∈ block.targets := by
  simp only [edgeList, List.mem_flatMap, Prod.exists, Table.mem_pairs, List.mem_map, Prod.mk.injEq]
  constructor
  · rintro ⟨b', block, hb, target', htarget, rfl, rfl⟩
    exact ⟨block, hb, htarget⟩
  · rintro ⟨block, hb, htarget⟩
    exact ⟨b, block, hb, target, htarget, rfl, rfl⟩

theorem get?_link (t : Table .machineBlock Edges) (edge : BlockId × BlockId) (b : BlockId) :
    (link t edge).get? b = (t.get? b).map fun e =>
      { successors := if edge.1 = b then e.successors.insert edge.2 else e.successors
        predecessors := if edge.2 = b then e.predecessors.insert edge.1 else e.predecessors } := by
  simp only [link, Table.get?_modify]
  by_cases h1 : edge.1 = b <;> by_cases h2 : edge.2 = b <;> cases t.get? b <;> simp [h1, h2]

theorem get?_foldl_link (list : List (BlockId × BlockId)) (h : t.get? b = some e) :
    ∃ e', (list.foldl link t).get? b = some e' ∧
      (∀ x, x ∈ e'.successors ↔ x ∈ e.successors ∨ (b, x) ∈ list) ∧
      (∀ x, x ∈ e'.predecessors ↔ x ∈ e.predecessors ∨ (x, b) ∈ list) := by
  induction list generalizing t e with
  | nil => exact ⟨e, h, by simp, by simp⟩
  | cons edge rest ih =>
    have hlink : (link t edge).get? b =
        some { successors := if edge.1 = b then e.successors.insert edge.2 else e.successors
               predecessors :=
                if edge.2 = b then e.predecessors.insert edge.1 else e.predecessors } := by
      rw [get?_link, h]
      rfl
    obtain ⟨e', he', hsucc, hpred⟩ := ih hlink
    refine ⟨e', he', fun x => ?_, fun x => ?_⟩
    · rw [hsucc, List.mem_cons, Prod.ext_iff]
      by_cases h1 : edge.1 = b
      · simp only [h1, if_true, Std.ExtTreeSet.mem_insert, Std.compare_eq_iff_eq, true_and,
          eq_comm (a := edge.2)]
        tauto
      · simp [h1, Ne.symm h1]
    · rw [hpred, List.mem_cons, Prod.ext_iff]
      by_cases h2 : edge.2 = b
      · simp only [h2, if_true, Std.ExtTreeSet.mem_insert, Std.compare_eq_iff_eq, and_true,
          eq_comm (a := edge.1)]
        tauto
      · simp [h2, Ne.symm h2]

variable {f : Function} {edges : Table .machineBlock Edges}

theorem edges_eq_ok (h : f.edges = .ok edges) :
    edges = f.edgeList.foldl link (f.blocks.map fun _ => {}) ∧
      ∀ b target, (b, target) ∈ f.edgeList → target.val < f.blocks.size := by
  simp only [Function.edges] at h
  split at h
  · rename_i hall
    simp only [List.all_eq_true, decide_eq_true_eq, Prod.forall] at hall
    exact ⟨(Except.ok.inj h).symm, hall⟩
  · simp at h

theorem edges_get? (h : f.edges = .ok edges) (hb : b.val < f.blocks.size) :
    (∀ x, x ∈ ((edges.get? b).getD {}).successors ↔ (b, x) ∈ f.edgeList) ∧
      (∀ x, x ∈ ((edges.get? b).getD {}).predecessors ↔ (x, b) ∈ f.edgeList) := by
  obtain ⟨block, hblock⟩ := Table.exists_get? hb
  have hstart : (f.blocks.map fun _ => ({} : Edges)).get? b = some {} := by simp [hblock]
  obtain ⟨e, he, hsucc, hpred⟩ := get?_foldl_link f.edgeList hstart
  rw [(edges_eq_ok h).1, he]
  exact ⟨fun x => by simpa using hsucc x, fun x => by simpa using hpred x⟩

end Function

/-! ## Sets of a block -/

theorem mem_liveBefore_iff (code : List Instr) (after : RegisterSet) (r : Register) :
    r ∈ liveBefore code after ↔
      r ∈ liveBefore code ∅ ∨ r ∈ after ∧ r ∉ code.flatMap Instr.defs := by
  induction code with
  | nil => simp [liveBefore]
  | cons i rest ih =>
    simp only [liveBefore, List.foldr_cons] at ih ⊢
    rw [Instr.mem_liveBefore, Instr.mem_liveBefore, ih, List.flatMap_cons, List.mem_append]
    tauto

theorem Block.mem_defs (block : Block) (r : Register) :
    r ∈ block.defs ↔ r ∈ block.code.flatMap Instr.defs := by
  rw [Block.defs, Std.ExtTreeSet.mem_ofList, List.contains_iff_mem]

theorem mem_uses_of_mem_liveBefore (h : r ∈ liveBefore code ∅) : r ∈ code.flatMap Instr.uses := by
  induction code with
  | nil => simp [liveBefore] at h
  | cons i rest ih =>
    simp only [liveBefore, List.foldr_cons, Instr.mem_liveBefore] at h ih
    rw [List.flatMap_cons, List.mem_append]
    rcases h with h | h
    · exact Or.inl h
    · exact Or.inr (ih h.1)

namespace Liveness

variable {f : Function} {l : Liveness} {queue : List BlockId} {edges : Table .machineBlock Edges}

def readRegisters (f : Function) : List Register :=
  f.code.flatMap Instr.uses

theorem mem_readRegisters {b : BlockId} {block : Block} {r : Register}
    (hb : f.blocks.get? b = some block) (h : r ∈ block.uses) : r ∈ readRegisters f := by
  obtain ⟨i, hi, hr⟩ := List.mem_flatMap.mp (mem_uses_of_mem_liveBefore h)
  refine List.mem_flatMap.mpr ⟨i, List.mem_flatMap.mpr ⟨block, ?_, hi⟩, hr⟩
  simp only [Table.get?] at hb
  exact List.mem_of_getElem? (i := b.val) (by simpa using hb)

theorem block_visit (l : Liveness) (b c : BlockId) (successors : List BlockId)
    (hb : b.val < l.sets.size) :
    (l.visit b successors).block c =
      if b = c then
        { l.block b with
          liveOut := l.joined successors
          liveIn := (l.block b).uses ∪
            (l.joined successors).filter fun r => !(l.block b).defs.contains r }
      else l.block c := by
  simp only [visit, block, Table.get?_modify]
  by_cases h : b = c
  · subst h
    obtain ⟨sets, hsets⟩ := Table.exists_get? hb
    simp [hsets]
  · simp [h]

structure Progress (f : Function) (queue : List BlockId) (l : Liveness) : Prop where
  size : l.sets.size = f.blocks.size
  nodup : queue.Nodup
  queued : ∀ b ∈ queue, b.val < f.blocks.size
  /-- The sets a visit starts from are those of the block -/
  fixed : ∀ {b block}, f.blocks.get? b = some block →
    (l.block b).uses = block.uses ∧ (l.block b).defs = block.defs
  /-- A visit loses nothing -/
  rising : ∀ {b block}, f.blocks.get? b = some block → ∀ r ∈ (l.block b).liveIn,
    r ∈ block.uses ∨ r ∈ l.joined block.targets ∧ r ∉ block.defs
  settled : ∀ {b block}, f.blocks.get? b = some block → b ∉ queue →
    (∀ r, r ∈ (l.block b).liveOut ↔ r ∈ l.joined block.targets) ∧
      ∀ r, r ∈ (l.block b).liveIn ↔ r ∈ block.uses ∨ r ∈ (l.block b).liveOut ∧ r ∉ block.defs
  bounded : ∀ b r, r ∈ (l.block b).liveIn → r ∈ readRegisters f

/-- The size of all live-in sets together, counted over the registers read. -/
def weight (f : Function) (l : Liveness) : Nat :=
  (f.blocks.indices.map fun b => (readRegisters f).countP (· ∈ (l.block b).liveIn)).sum

theorem weight_le (f : Function) (l : Liveness) :
    weight f l ≤ f.blocks.size * (readRegisters f).length := by
  have hle : ∀ n ∈ f.blocks.indices.map fun b =>
      (readRegisters f).countP (· ∈ (l.block b).liveIn), n ≤ (readRegisters f).length := by
    intro n hn
    obtain ⟨b, -, rfl⟩ := List.mem_map.mp hn
    exact List.countP_le_length
  have := List.sum_le_card_nsmul _ _ hle
  simpa [weight, Table.indices] using this

theorem countP_lt_countP {α : Type} {p q : α → Bool} {xs : List α} (hpq : ∀ x, p x → q x)
    {a : α} (ha : a ∈ xs) (hp : ¬ p a) (hq : q a) : xs.countP p < xs.countP q := by
  induction xs with
  | nil => simp at ha
  | cons x rest ih =>
    have hmono : rest.countP p ≤ rest.countP q := List.countP_mono_left fun y _ => hpq y
    rcases List.mem_cons.mp ha with rfl | hrest
    · rw [List.countP_cons_of_pos hq, List.countP_cons_of_neg hp]
      omega
    · have hlt := ih hrest
      have hx := hpq x
      simp only [List.countP_cons]
      split <;> split <;> simp_all

theorem mem_enqueue {queue : List BlockId} : c ∈ enqueue queue blocks ↔ c ∈ queue ∨ c ∈ blocks := by
  simp only [enqueue]
  induction blocks generalizing queue with
  | nil => simp
  | cons b rest ih =>
    rw [List.foldl_cons, ih]
    split
    · rename_i hb
      constructor
      · rintro (h | h)
        · exact Or.inl h
        · exact Or.inr (.tail _ h)
      · rintro (h | h)
        · exact Or.inl h
        · rcases List.mem_cons.mp h with rfl | h
          · exact Or.inl hb
          · exact Or.inr h
    · simp [or_assoc]

theorem nodup_enqueue (blocks : List BlockId) (h : queue.Nodup) : (enqueue queue blocks).Nodup := by
  simp only [enqueue]
  induction blocks generalizing queue with
  | nil => exact h
  | cons b rest ih =>
    rw [List.foldl_cons]
    split
    · exact ih h
    · rename_i hb
      apply ih
      rw [List.nodup_append]
      refine ⟨h, by simp, ?_⟩
      rintro x hx y hy rfl
      exact hb (by simpa using List.mem_singleton.mp hy ▸ hx)

section Visit

variable {b : BlockId} {block : Block} {queue successors : List BlockId}

variable (P : Progress f (b :: queue) l)
include P

theorem mem_liveIn_visit (hblock : f.blocks.get? b = some block)
    (hsucc : ∀ x, x ∈ successors ↔ x ∈ block.targets) (r : Register) :
    r ∈ ((l.visit b successors).block b).liveIn ↔
      r ∈ block.uses ∨ r ∈ l.joined block.targets ∧ r ∉ block.defs := by
  have hb : b.val < l.sets.size := by
    rw [P.size]
    exact P.queued b (.head _)
  obtain ⟨huses, hdefs⟩ := P.fixed hblock
  rw [block_visit l b b successors hb, if_pos rfl]
  simp [huses, hdefs, mem_joined, hsucc, ← Bool.not_eq_true]

theorem mem_liveOut_visit (hsucc : ∀ x, x ∈ successors ↔ x ∈ block.targets) (r : Register) :
    r ∈ ((l.visit b successors).block b).liveOut ↔ r ∈ l.joined block.targets := by
  have hb : b.val < l.sets.size := by
    rw [P.size]
    exact P.queued b (.head _)
  rw [block_visit l b b successors hb, if_pos rfl]
  simp [mem_joined, hsucc]

theorem block_visit_of_ne (h : b ≠ c) : (l.visit b successors).block c = l.block c := by
  have hb : b.val < l.sets.size := by
    rw [P.size]
    exact P.queued b (.head _)
  rw [block_visit l b c successors hb, if_neg h]

theorem liveIn_subset_visit (hblock : f.blocks.get? b = some block)
    (hsucc : ∀ x, x ∈ successors ↔ x ∈ block.targets) (c : BlockId) {r : Register}
    (h : r ∈ (l.block c).liveIn) : r ∈ ((l.visit b successors).block c).liveIn := by
  by_cases hc : b = c
  · subst hc
    exact (mem_liveIn_visit P hblock hsucc r).mpr (P.rising hblock r h)
  · rw [block_visit_of_ne P hc]
    exact h

/-- A visit of `b` is seen by blocks that go to `b` only, and not even by them
if the live-in set stayed the same. -/
theorem mem_joined_visit
    (h : b ∉ targets ∨ ∀ r, r ∈ ((l.visit b successors).block b).liveIn ↔ r ∈ (l.block b).liveIn)
    (r : Register) : r ∈ (l.visit b successors).joined targets ↔ r ∈ l.joined targets := by
  rw [mem_joined, mem_joined]
  apply exists_congr
  intro c
  apply and_congr_right
  intro hc
  by_cases hbc : b = c
  · subst hbc
    rcases h with h | h
    · exact absurd hc h
    · exact h r
  · rw [block_visit_of_ne P hbc]

variable (hblock : f.blocks.get? b = some block) (hsucc : ∀ x, x ∈ successors ↔ x ∈ block.targets)
include hblock hsucc

/-- **A visit keeps the invariant** if the blocks that go to the visited one are
queued afterwards, or if its live-in set did not change. -/
theorem Progress.visit {queue' : List BlockId} (hnodup : queue'.Nodup)
    (hqueued : ∀ c ∈ queue', c.val < f.blocks.size) (hkept : ∀ c ∈ queue, c ∈ queue')
    (hseen : (∀ r, r ∈ ((l.visit b successors).block b).liveIn ↔ r ∈ (l.block b).liveIn) ∨
      ∀ c source, f.blocks.get? c = some source → b ∈ source.targets → c ∈ queue') :
    Progress f queue' (l.visit b successors) where
  size := by
    rw [← P.size]
    simp [Liveness.visit]
  nodup := hnodup
  queued := hqueued
  fixed := by
    intro c source hc
    by_cases hbc : b = c
    · subst hbc
      have hb : b.val < l.sets.size := by
        rw [P.size]
        exact P.queued b (.head _)
      rw [block_visit l b b successors hb, if_pos rfl]
      exact P.fixed hc
    · rw [block_visit_of_ne P hbc]
      exact P.fixed hc
  rising := by
    intro c source hc r hr
    have hgrows : ∀ r, r ∈ l.joined source.targets →
        r ∈ (l.visit b successors).joined source.targets := by
      intro r hr
      obtain ⟨d, hd, hrd⟩ := (mem_joined l _ r).mp hr
      exact (mem_joined _ _ r).mpr ⟨d, hd, liveIn_subset_visit P hblock hsucc d hrd⟩
    have hold : r ∈ source.uses ∨ r ∈ l.joined source.targets ∧ r ∉ source.defs := by
      by_cases hbc : b = c
      · subst hbc
        obtain rfl : block = source := Option.mem_unique hblock hc
        exact (mem_liveIn_visit P hblock hsucc r).mp hr
      · rw [block_visit_of_ne P hbc] at hr
        exact P.rising hc r hr
    rcases hold with huse | ⟨hjoined, hdef⟩
    · exact Or.inl huse
    · exact Or.inr ⟨hgrows r hjoined, hdef⟩
  settled := by
    intro c source hc hout
    -- the sets this block looks at did not change
    have hsame : b ∉ source.targets ∨
        ∀ r, r ∈ ((l.visit b successors).block b).liveIn ↔ r ∈ (l.block b).liveIn := by
      rcases hseen with hsame | hpred
      · exact Or.inr hsame
      · exact Or.inl fun hb => hout (hpred c source hc hb)
    have hjoined := mem_joined_visit P hsame
    by_cases hbc : b = c
    · subst hbc
      obtain rfl : block = source := Option.mem_unique hblock hc
      constructor
      · intro r
        rw [mem_liveOut_visit P hsucc, hjoined]
      · intro r
        rw [mem_liveIn_visit P hblock hsucc, mem_liveOut_visit P hsucc]
    · rw [block_visit_of_ne P hbc]
      obtain ⟨hliveOut, hliveIn⟩ := P.settled hc fun hmem =>
        (List.mem_cons.mp hmem).elim (fun h => hbc h.symm) fun h => hout (hkept c h)
      exact ⟨fun r => by rw [hliveOut, hjoined], hliveIn⟩
  bounded := by
    intro c r hr
    by_cases hbc : b = c
    · subst hbc
      rcases (mem_liveIn_visit P hblock hsucc r).mp hr with huse | ⟨hjoined, -⟩
      · exact mem_readRegisters hblock huse
      · obtain ⟨d, -, hd⟩ := (mem_joined l _ r).mp hjoined
        exact P.bounded d r hd
    · rw [block_visit_of_ne P hbc] at hr
      exact P.bounded c r hr

theorem weight_lt_visit (hchanged : ((l.visit b successors).block b).liveIn ≠ (l.block b).liveIn) :
    weight f l < weight f (l.visit b successors) := by
  have hsub := liveIn_subset_visit P hblock hsucc
  obtain ⟨r, hnew, hold⟩ : ∃ r, r ∈ ((l.visit b successors).block b).liveIn ∧
      r ∉ (l.block b).liveIn := by
    by_contra hnone
    push Not at hnone
    exact hchanged (Std.ExtTreeSet.ext_mem fun r => ⟨hnone r, hsub b⟩)
  have hread : r ∈ readRegisters f := by
    rcases (mem_liveIn_visit P hblock hsucc r).mp hnew with huse | ⟨hjoined, -⟩
    · exact mem_readRegisters hblock huse
    · obtain ⟨d, -, hd⟩ := (mem_joined l _ r).mp hjoined
      exact P.bounded d r hd
  apply List.sum_lt_sum
  · intro c _
    exact List.countP_mono_left fun r _ h => by simpa using hsub c (by simpa using h)
  · refine ⟨b, (f.blocks.mem_indices b).mpr (P.queued b (.head _)), ?_⟩
    exact countP_lt_countP (fun r h => by simpa using hsub b (by simpa using h)) hread
      (by simpa using hold) (by simpa using hnew)

end Visit

/-- How many visits are left at most. -/
def visitsLeft (f : Function) (queue : List BlockId) (l : Liveness) : Nat :=
  (f.blocks.size * (readRegisters f).length - weight f l) * (f.blocks.size + 1) + queue.length

theorem length_le_of_progress (P : Progress f queue l) : queue.length ≤ f.blocks.size := by
  have hsub : queue.Subperm f.blocks.indices :=
    P.nodup.subperm fun b hb => (f.blocks.mem_indices b).mpr (P.queued b hb)
  simpa [Table.indices] using hsub.length_le

section

variable (hedges : f.edges = .ok edges)
include hedges

/-- **A step of the queue keeps the invariant.**  The blocks that go to the visited
one are queued again if its live-in set changed. -/
theorem Progress.step {b : BlockId} (P : Progress f (b :: queue) l) :
    let around := (edges.get? b).getD {}
    let next := l.visit b around.successors.toList
    Progress f (if (next.block b).liveIn = (l.block b).liveIn then queue
        else enqueue queue around.predecessors.toList) next := by
  intro around next
  have hb := P.queued b (.head _)
  obtain ⟨block, hblock⟩ := Table.exists_get? hb
  obtain ⟨hsuccs, hpreds⟩ := Function.edges_get? hedges hb
  have hsucc : ∀ x, x ∈ around.successors.toList ↔ x ∈ block.targets := by
    intro x
    rw [Std.ExtTreeSet.mem_toList, hsuccs, Function.mem_edgeList]
    simp [hblock]
  have hnodup := List.nodup_cons.mp P.nodup
  split
  · rename_i hsame
    exact P.visit hblock hsucc hnodup.2 (fun c hc => P.queued c (.tail _ hc))
      (fun c hc => hc) (Or.inl fun r => by rw [hsame])
  · refine P.visit hblock hsucc (nodup_enqueue _ hnodup.2) ?_ ?_ (Or.inr ?_)
    · intro c hc
      rcases mem_enqueue.mp hc with hc | hc
      · exact P.queued c (.tail _ hc)
      · rw [Std.ExtTreeSet.mem_toList, hpreds, Function.mem_edgeList] at hc
        obtain ⟨source, hsource, -⟩ := hc
        exact Table.lt_size_of_get? hsource
    · intro c hc
      exact mem_enqueue.mpr (Or.inl hc)
    · intro c source hsource htarget
      apply mem_enqueue.mpr
      right
      rw [Std.ExtTreeSet.mem_toList, hpreds, Function.mem_edgeList]
      exact ⟨source, hsource, htarget⟩

/-- A step of the queue leaves fewer visits: it takes a block out, or a live-in set grows. -/
theorem Progress.visitsLeft_lt {b : BlockId} (P : Progress f (b :: queue) l) :
    let around := (edges.get? b).getD {}
    let next := l.visit b around.successors.toList
    visitsLeft f (if (next.block b).liveIn = (l.block b).liveIn then queue
        else enqueue queue around.predecessors.toList) next < visitsLeft f (b :: queue) l := by
  intro around next
  have hb := P.queued b (.head _)
  obtain ⟨block, hblock⟩ := Table.exists_get? hb
  obtain ⟨hsuccs, -⟩ := Function.edges_get? hedges hb
  have hsucc : ∀ x, x ∈ around.successors.toList ↔ x ∈ block.targets := by
    intro x
    rw [Std.ExtTreeSet.mem_toList, hsuccs, Function.mem_edgeList]
    simp [hblock]
  have hprogress := P.step hedges
  split
  · rename_i hsame
    have hweight : weight f next = weight f l := by
      simp only [weight]
      congr 1
      apply List.map_congr_left
      intro c _
      by_cases hbc : b = c
      · subst hbc
        rw [hsame]
      · rw [block_visit_of_ne P hbc]
    simp only [visitsLeft, hweight, List.length_cons]
    omega
  · rename_i hchanged
    simp only [next, around, if_neg hchanged] at hprogress
    have hlt : weight f l < weight f next := weight_lt_visit P hblock hsucc hchanged
    have hlen : (enqueue queue around.predecessors.toList).length ≤ f.blocks.size :=
      length_le_of_progress hprogress
    have hbound := weight_le f next
    have hstep : (f.blocks.size * (readRegisters f).length - weight f next + 1) *
          (f.blocks.size + 1) ≤
        (f.blocks.size * (readRegisters f).length - weight f l) * (f.blocks.size + 1) :=
      Nat.mul_le_mul_right _ (by omega)
    rw [Nat.add_mul] at hstep
    simp only [visitsLeft, List.length_cons]
    omega

/-- **The queue runs empty**, and then every block satisfies its equations. -/
theorem progress_solve (fuel : Nat) (queue : List BlockId) (l : Liveness) (P : Progress f queue l)
    (hfuel : visitsLeft f queue l ≤ fuel) : Progress f [] (solve edges fuel queue l) := by
  induction fuel generalizing queue l with
  | zero =>
    have hempty : queue = [] := by
      apply List.eq_nil_of_length_eq_zero
      simp only [visitsLeft] at hfuel
      omega
    subst hempty
    exact P
  | succ fuel ih =>
    cases queue with
    | nil => exact P
    | cons b queue =>
      have hprogress := P.step hedges
      have hlt := P.visitsLeft_lt hedges
      simp only [solve]
      split
      · rename_i hsame
        simp only [hsame, if_true] at hprogress hlt
        exact ih queue _ hprogress (by omega)
      · rename_i hchanged
        simp only [hchanged, if_false] at hprogress hlt
        exact ih _ _ hprogress (by omega)

/-- Live sets stay within bounds that no block can leave: what is live at the end of
a block within the bounds of its targets is within its own at the start. -/
theorem solve_within {S : BlockId → Register → Prop}
    (hclosed : ∀ b block, f.blocks.get? b = some block → ∀ r,
      r ∈ block.uses ∨ (∃ target ∈ block.targets, S target r) ∧ r ∉ block.defs → S b r) (fuel : Nat)
    (queue : List BlockId) (l : Liveness) (P : Progress f queue l)
    (hl : ∀ b r, r ∈ (l.block b).liveIn → S b r) :
    ∀ b r, r ∈ ((solve edges fuel queue l).block b).liveIn → S b r := by
  induction fuel generalizing queue l with
  | zero => exact hl
  | succ fuel ih =>
    cases queue with
    | nil => exact hl
    | cons b queue =>
      have hb := P.queued b (.head _)
      obtain ⟨block, hblock⟩ := Table.exists_get? hb
      obtain ⟨hsuccs, -⟩ := Function.edges_get? hedges hb
      have hsucc : ∀ x, x ∈ ((edges.get? b).getD {}).successors.toList ↔ x ∈ block.targets := by
        intro x
        rw [Std.ExtTreeSet.mem_toList, hsuccs, Function.mem_edgeList]
        simp [hblock]
      have hnext : ∀ c r,
          r ∈ ((l.visit b ((edges.get? b).getD {}).successors.toList).block c).liveIn → S c r := by
        intro c r hr
        by_cases hbc : b = c
        · subst hbc
          refine hclosed b block hblock r (((mem_liveIn_visit P hblock hsucc r).mp hr).imp_right ?_)
          rintro ⟨hjoined, hdef⟩
          obtain ⟨target, htarget, hlive⟩ := (mem_joined l _ r).mp hjoined
          exact ⟨⟨target, htarget, hl target r hlive⟩, hdef⟩
        · rw [block_visit_of_ne P hbc] at hr
          exact hl c r hr
      have hprogress := P.step hedges
      simp only [solve]
      split
      · rename_i hsame
        simp only [hsame, if_true] at hprogress
        exact ih queue _ hprogress hnext
      · rename_i hchanged
        simp only [hchanged, if_false] at hprogress
        exact ih _ _ hprogress hnext

end

theorem progress_start (hexit : f.exit.val < f.blocks.size) :
    Progress f (startQueue f) (start f) where
  size := by simp [start]
  nodup := by
    rw [startQueue, List.nodup_cons]
    refine ⟨by simp, ?_⟩
    apply List.Nodup.filter
    rw [List.nodup_reverse]
    exact (List.nodup_range).map fun a b h => by simpa using h
  queued := by
    intro b hb
    rcases List.mem_cons.mp hb with rfl | hb
    · exact hexit
    · have hmem := (List.mem_filter.mp hb).1
      exact (f.blocks.mem_indices b).mp (List.mem_reverse.mp hmem)
  fixed := by
    intro b block hb
    simp [start, Liveness.block, hb]
  rising := by
    intro b block hb r hr
    simp [start, Liveness.block, hb] at hr
  settled := by
    intro b block hb hout
    exfalso
    apply hout
    rw [startQueue, List.mem_cons]
    by_cases hbe : b = f.exit
    · exact Or.inl hbe
    · right
      have hmem := (f.blocks.mem_indices b).mpr (Table.lt_size_of_get? hb)
      simpa [hbe] using hmem
  bounded := by
    intro b r hr
    simp only [start, Liveness.block, Table.get?_map] at hr
    cases hb : f.blocks.get? b <;> simp [hb] at hr

theorem visitsLeft_start_le (f : Function) (hexit : f.exit.val < f.blocks.size) :
    visitsLeft f (startQueue f) (start f) ≤ visitBound f := by
  have hlen := length_le_of_progress (progress_start hexit)
  have hle := Nat.mul_le_mul_right (f.blocks.size + 1) (Nat.sub_le
    (f.blocks.size * (readRegisters f).length) (weight f (start f)))
  simp only [visitsLeft, visitBound, readRegisters] at hle ⊢
  omega

end Liveness

structure LiveSolution (f : Function) (l : Liveness) : Prop where
  mem_liveIn : ∀ {b block}, f.blocks.get? b = some block → ∀ r,
    r ∈ (l.block b).liveIn ↔ r ∈ liveBefore block.code (l.block b).liveOut
  mem_liveOut : ∀ {b block}, f.blocks.get? b = some block → ∀ r,
    r ∈ (l.block b).liveOut ↔ ∃ target ∈ block.targets, r ∈ (l.block target).liveIn

variable {f : Function} {l : Liveness}

variable (h : Liveness.compute f = .ok l)
include h

theorem Liveness.compute_eq_ok : ∃ edges, f.edges = .ok edges ∧ f.exit.val < f.blocks.size ∧
      l = Liveness.solve edges (visitBound f) (startQueue f) (start f) := by
  simp only [Liveness.compute, bind, Except.bind] at h
  cases hedges : f.edges with
  | error e => simp [hedges] at h
  | ok edges =>
    simp only [hedges] at h
    split at h
    · exact ⟨edges, rfl, ‹_›, (Except.ok.inj h).symm⟩
    · simp [throw, throwThe, MonadExceptOf.throw] at h

theorem liveSolution_of_compute : LiveSolution f l := by
  obtain ⟨edges, hedges, hexit, rfl⟩ := Liveness.compute_eq_ok h
  have P := Liveness.progress_solve hedges (Liveness.visitBound f) _ _
    (Liveness.progress_start hexit) (Liveness.visitsLeft_start_le f hexit)
  constructor
  · intro b block hb r
    rw [(P.settled hb (by simp)).2, mem_liveBefore_iff, ← Block.mem_defs]
    rfl
  · intro b block hb r
    rw [(P.settled hb (by simp)).1, Liveness.mem_joined]

/-- **Computed live sets are the least ones**: they stay within all bounds that no
block can leave. -/
theorem within_of_compute {S : BlockId → Register → Prop}
    (hclosed : ∀ b block, f.blocks.get? b = some block → ∀ out : RegisterSet,
      (∀ r ∈ out, ∃ target ∈ block.targets, S target r) → ∀ r ∈ liveBefore block.code out, S b r)
    (hr : r ∈ (l.block b).liveIn) : S b r := by
  obtain ⟨edges, hedges, hexit, rfl⟩ := Liveness.compute_eq_ok h
  refine Liveness.solve_within hedges ?_ _ _ _ (Liveness.progress_start hexit) ?_ b r hr
  · intro b block hb r hr
    rcases hr with huse | ⟨htarget, hdef⟩
    · exact hclosed b block hb ∅ (by simp) r huse
    · refine hclosed b block hb (Std.ExtTreeSet.ofList [r]) ?_ r ?_
      · intro q hq
        obtain rfl : r = q := by simpa using hq
        exact htarget
      · rw [mem_liveBefore_iff, ← Block.mem_defs]
        exact Or.inr ⟨by simp, hdef⟩
  · intro c q hq
    simp only [Liveness.start, Liveness.block, Table.get?_map] at hq
    cases hc : f.blocks.get? c <;> simp [hc] at hq

end Machine

end MxStar
