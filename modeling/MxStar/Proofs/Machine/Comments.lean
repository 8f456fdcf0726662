import MxStar.Proofs.Machine.AllocationRun

/-!
# Comments among machine code

A comment names no register and goes nowhere.  Liveness, interference, colouring and spill
code therefore come out the same with comments and without, and allocation takes the same
rounds to the same places.  The one thing that could tell is the end of a block, which is
read off its last instruction, so that must not be a comment.
-/

namespace MxStar.Machine

/-! ## Code without comments -/

def Instr.isComment : Instr → Bool
  | .comment _ => true
  | _ => false

def dropComments (code : List Instr) : List Instr :=
  code.filter fun i => !i.isComment

def Block.bare (b : Block) : Block :=
  { b with code := dropComments b.code }

def Function.bare (f : Function) : Function :=
  { f with blocks := f.blocks.map Block.bare }

@[simp]
theorem dropComments_append (code more : List Instr) :
    dropComments (code ++ more) = dropComments code ++ dropComments more :=
  List.filter_append ..

variable {code : List Instr} {f : Function} {slots : SpillSlots}

theorem dropComments_eq_self (h : ∀ i ∈ code, i.isComment = false) : dropComments code = code :=
  List.filter_eq_self.mpr fun i hi => by simp [h i hi]

theorem Instr.isComment_mapRegisters (g : Register → Register) (i : Instr) :
    (i.mapRegisters g).isComment = i.isComment := by
  cases i <;> rfl

theorem foldr_dropComments {β : Type} {step : Instr → β → β}
    (hstep : ∀ text b, step (.comment text) b = b) (code : List Instr) (b : β) :
    (dropComments code).foldr step b = code.foldr step b := by
  rw [dropComments, List.foldr_filter]
  congr
  funext i b
  cases i with
  | comment text => exact (hstep text b).symm
  | _ => rfl

theorem flatMap_dropComments {β : Type} {g : Instr → List β} (hg : ∀ text, g (.comment text) = [])
    (code : List Instr) : (dropComments code).flatMap g = code.flatMap g := by
  have hfoldr : ∀ code : List Instr, code.flatMap g = code.foldr (fun i all => g i ++ all) [] := by
    intro code
    induction code with
    | nil => rfl
    | cons i rest ih => rw [List.flatMap_cons, ih, List.foldr_cons]
  rw [hfoldr, hfoldr]
  exact foldr_dropComments (fun text all => by rw [hg, List.nil_append]) code []

theorem Function.code_bare (f : Function) : f.bare.code = dropComments f.code := by
  simp only [Function.code, Function.bare, Table.map, Array.toList_map, dropComments,
    List.flatMap_map, List.filter_flatMap]
  rfl

/-! ## The end of a block -/

def EndsInCode (code : List Instr) : Prop :=
  ∀ i ∈ code.getLast?, i.isComment = false

def Function.EndsInCode (f : Function) : Prop :=
  ∀ b ∈ f.blocks.entries.toList, Machine.EndsInCode b.code

theorem endsInCode_nil : EndsInCode [] := by
  simp [EndsInCode]

theorem EndsInCode.append_of_ne_nil (hmore : EndsInCode more) (hne : more ≠ []) :
    EndsInCode (code ++ more) := by
  rw [EndsInCode, List.getLast?_append_of_ne_nil _ hne]
  exact hmore

theorem getLast?_dropComments (h : EndsInCode code) :
    (dropComments code).getLast? = code.getLast? := by
  rcases List.eq_nil_or_concat code with rfl | ⟨body, last, rfl⟩
  · rfl
  · have hlast : last.isComment = false := h last (by simp)
    simp [dropComments, hlast]

theorem Block.targets_bare {b : Block} (h : EndsInCode b.code) : b.bare.targets = b.targets := by
  have hlast : b.bare.terminator? = b.terminator? := by
    rw [Block.terminator?, Block.terminator?, Block.bare, getLast?_dropComments h]
  rw [Block.targets, Block.targets, hlast]

theorem Function.edges_bare (h : f.EndsInCode) : f.bare.edges = f.edges := by
  have hlist : f.bare.edgeList = f.edgeList := by
    rw [Function.edgeList, Function.edgeList, Function.bare, Table.pairs_map, List.flatMap_map]
    refine List.flatMap_congr fun p hp => ?_
    change p.2.bare.targets.map _ = p.2.targets.map _
    rw [Block.targets_bare (h p.2 (Table.mem_entries_of_mem_pairs hp))]
  have hempty : (f.bare.blocks.map fun _ => ({} : Edges)) = f.blocks.map fun _ => {} :=
    Table.ext_get? fun id => by simp [Function.bare, Function.comp_def]
  rw [Function.edges, Function.edges, hlist, hempty, Function.bare, Table.size_map]

/-! ## Liveness -/

theorem liveBefore_comment (text : String) (after : RegisterSet) :
    (Instr.comment text).liveBefore after = after := by
  refine Std.ExtTreeSet.ext_mem fun r => ?_
  rw [Instr.mem_liveBefore]
  simp [Instr.uses, Instr.defs, Instr.reads, Instr.writes, Instr.operands]

theorem Block.uses_bare (b : Block) : b.bare.uses = b.uses :=
  foldr_dropComments liveBefore_comment b.code ∅

theorem Block.defs_bare (b : Block) : b.bare.defs = b.defs := by
  rw [Block.defs, Block.defs, Block.bare, flatMap_dropComments fun _ => rfl]

theorem Liveness.compute_bare (h : f.EndsInCode) :
    Liveness.compute f.bare = Liveness.compute f := by
  have hstart : Liveness.start f.bare = Liveness.start f := by
    simp only [Liveness.start, Function.bare, Liveness.mk.injEq, and_true]
    refine Table.ext_get? fun id => ?_
    simp only [Table.get?_map, Option.map_map]
    cases f.blocks.get? id with
    | none => rfl
    | some b => simp [Block.uses_bare, Block.defs_bare]
  have hsize : f.bare.blocks.size = f.blocks.size := by simp [Function.bare]
  have hqueue : Liveness.startQueue f.bare = Liveness.startQueue f := by
    rw [Liveness.startQueue, Liveness.startQueue, Function.bare, Table.indices_map]
  have hbound : Liveness.visitBound f.bare = Liveness.visitBound f := by
    simp only [Liveness.visitBound, hsize, Function.code_bare]
    rw [flatMap_dropComments fun _ => rfl]
  simp only [Liveness.compute, Function.edges_bare h, hstart, hqueue, hbound, hsize]
  rfl

/-! ## Colouring -/

theorem walk_comment (text : String) (state : RegisterSet × Interference) :
    Interference.walk (.comment text) state = state :=
  Prod.ext (liveBefore_comment text state.1) rfl

theorem Interference.build_bare (f : Function) (l : Liveness) :
    Interference.build f.bare l = Interference.build f l := by
  have hinUse : f.bare.inUse = f.inUse := by
    rw [Function.inUse, Function.inUse, Function.mentions, Function.mentions, Function.code_bare,
      flatMap_dropComments fun _ => rfl]
  have hcode : ∀ (g : Interference) (b : Block) (liveOut : RegisterSet),
      g.addCode b.bare.code liveOut = g.addCode b.code liveOut := fun g b liveOut =>
    congrArg Prod.snd (foldr_dropComments walk_comment b.code (liveOut, g))
  rw [Interference.build, Interference.build, hinUse, Function.bare, Table.pairs_map,
    List.foldl_map]
  simp only [hcode]

theorem Function.spillInfo_bare (f : Function) : f.bare.spillInfo = f.spillInfo := by
  have hmentions : f.bare.mentions = f.mentions := by
    rw [Function.mentions, Function.mentions, Function.code_bare, flatMap_dropComments fun _ => rfl]
  rw [Function.spillInfo, Function.spillInfo, Function.occurrences, Function.occurrences, hmentions]
  rfl

/-! ## Spilling -/

theorem isComment_of_mem_spill {i j : Instr} {next : Nat} (hi : i.isComment = false)
    (hj : j ∈ i.spill slots next) : j.isComment = false := by
  simp only [Instr.spill, List.mem_append, List.mem_map, List.mem_singleton] at hj
  rcases hj with (⟨x, -, rfl⟩ | rfl) | ⟨x, -, rfl⟩
  · rfl
  · rw [Instr.isComment_mapRegisters, hi]
  · rfl

theorem dropComments_spillCode (slots : SpillSlots) (next : Nat) (code : List Instr) :
    spillCode slots next (dropComments code) =
      (dropComments (spillCode slots next code).1, (spillCode slots next code).2) := by
  induction code generalizing next with
  | nil => rfl
  | cons i rest ih =>
    cases hi : i.isComment with
    | true =>
      obtain ⟨text, rfl⟩ : ∃ text, i = .comment text := by
        cases i <;> first | exact ⟨_, rfl⟩ | cases hi
      exact ih next
    | false =>
      have hkeep : dropComments (i :: rest) = i :: dropComments rest := by simp [dropComments, hi]
      rw [hkeep]
      simp only [spillCode, ih, dropComments_append]
      rw [dropComments_eq_self fun j hj => isComment_of_mem_spill hi hj]

theorem dropComments_spillBlocks (slots : SpillSlots) (next : Nat) (blocks : List Block) :
    spillBlocks slots next (blocks.map Block.bare) =
      ((spillBlocks slots next blocks).1.map Block.bare, (spillBlocks slots next blocks).2) := by
  induction blocks generalizing next with
  | nil => rfl
  | cons b rest ih =>
    simp only [List.map_cons, spillBlocks, Block.bare, dropComments_spillCode]
    rw [show rest.map _ = rest.map Block.bare from rfl, ih]

theorem Function.bare_spill (f : Function) (registers : List VirtualId) :
    (f.spill registers).bare = f.bare.spill registers := by
  simp only [Function.spill, Function.bare, Table.map, Array.toList_map, dropComments_spillBlocks,
    List.map_toArray]

theorem spill_ne_nil (i : Instr) (slots : SpillSlots) (next : Nat) : i.spill slots next ≠ [] := by
  simp [Instr.spill]

theorem endsInCode_spillCode (h : EndsInCode code) (next : Nat) :
    EndsInCode (spillCode slots next code).1 := by
  induction code generalizing next with
  | nil => exact h
  | cons i rest ih =>
    cases rest with
    | nil =>
      have hi : i.isComment = false := h i rfl
      simp only [spillCode, List.append_nil]
      intro j hj
      exact isComment_of_mem_spill hi (List.mem_of_getLast? hj)
    | cons i' rest' =>
      refine (ih (fun j hj => h j ?_) _).append_of_ne_nil ?_
      · rw [List.getLast?_cons_cons]
        exact hj
      · simp [spillCode, spill_ne_nil]

theorem endsInCode_spillBlocks {blocks : List Block} (h : ∀ b ∈ blocks, EndsInCode b.code)
    (next : Nat) : ∀ b ∈ (spillBlocks slots next blocks).1, EndsInCode b.code := by
  induction blocks generalizing next with
  | nil => simp [spillBlocks]
  | cons b rest ih =>
    refine List.forall_mem_cons.mpr ⟨endsInCode_spillCode (h b (.head _)) next, ?_⟩
    exact ih (fun b hb => h b (.tail _ hb)) _

theorem Function.EndsInCode.spill (h : f.EndsInCode) (registers : List VirtualId) :
    (f.spill registers).EndsInCode :=
  endsInCode_spillBlocks h f.virtuals

/-! ## Allocation -/

def Allocation.bare (a : Allocation) : Allocation :=
  { a with function := a.function.bare }

theorem Function.liveness_bare (h : f.EndsInCode) : f.bare.liveness = f.liveness := by
  rw [Function.liveness, Function.liveness, Liveness.compute_bare h]
  rfl

/-- **Allocation takes the same rounds to the same colours without comments.** -/
theorem allocateRounds_bare (h : f.EndsInCode) (colors : List Physical) (failure : Error)
    (left round : Nat) (l : Liveness) :
    allocateRounds colors failure left round f.bare l =
      Allocation.bare <$> allocateRounds colors failure left round f l := by
  induction left generalizing f round l with
  | zero => rfl
  | succ left ih =>
    simp only [allocateRounds, Function.liveness_bare h, Interference.build_bare,
      Function.spillInfo_bare, map_bind]
    refine bind_congr fun live => ?_
    split
    · rw [map_bind]
      rfl
    · rw [map_bind]
      refine bind_congr fun _ => ?_
      rw [← Function.bare_spill, ih (h.spill _)]

theorem endsInCode_of_allocateRounds {colors : List Physical} {failure : Error} {left round : Nat}
    {l : Liveness} {log log' : Log} {allocation : Allocation} (h : f.EndsInCode)
    (hrounds : allocateRounds colors failure left round f l log = .ok allocation log') :
    allocation.function.EndsInCode := by
  induction left generalizing round f l log with
  | zero =>
    obtain ⟨rfl, -⟩ := EStateM.pure_eq_ok.mp hrounds
    exact h
  | succ left ih =>
    simp only [allocateRounds] at hrounds
    obtain ⟨live, between, hlive, hrounds⟩ := EStateM.bind_eq_ok.mp hrounds
    split at hrounds
    · rw [Logged.note_bind] at hrounds
      obtain ⟨rfl, -⟩ := EStateM.pure_eq_ok.mp hrounds
      exact h
    · rw [Logged.note_bind] at hrounds
      exact ih (h.spill _) hrounds

theorem Function.allocate_bare (h : f.EndsInCode) (l : Liveness) (options : Options) :
    f.bare.allocate l options = Allocation.bare <$> f.allocate l options :=
  allocateRounds_bare h _ _ _ _ _

theorem Block.bare_assign (b : Block) (colors : Colors) :
    (b.assign colors).bare = b.bare.assign colors := by
  have hfilter : dropComments (b.code.map (·.mapRegisters (replaceBy colors))) =
      (dropComments b.code).map (·.mapRegisters (replaceBy colors)) := by
    rw [dropComments, dropComments, List.filter_map]
    congr
    funext i
    exact congrArg (!·) (i.isComment_mapRegisters _)
  simp only [Block.assign, Block.bare, ← hfilter]
  rw [dropComments, dropComments, List.filter_comm]

theorem Function.written_bare (f : Function) (candidates : List Physical) :
    f.bare.written candidates = f.written candidates := by
  have hany : ∀ p : Physical, f.bare.code.any (fun i => .physical p ∈ i.defs) =
      f.code.any fun i => .physical p ∈ i.defs := by
    intro p
    rw [Function.code_bare, dropComments, List.any_filter]
    congr
    funext i
    cases i <;> rfl
  simp only [Function.written, hany]

theorem Function.bare_assign (f : Function) (a : Assignment) :
    (f.assign a).bare = f.bare.assign a := by
  have hblocks : (f.blocks.map (Block.assign a.colors)).map Block.bare =
      (f.blocks.map Block.bare).map (Block.assign a.colors) :=
    Table.ext_get? fun id => by
      simp only [Table.get?_map, Option.map_map]
      exact congrArg (fun g => (f.blocks.get? id).map g)
        (funext fun b => Block.bare_assign b a.colors)
  have hwritten := Function.written_bare
    { f with blocks := f.blocks.map (Block.assign a.colors) } Physical.calleeSaved
  simp only [Function.bare, hblocks] at hwritten
  simp only [Function.assign, Function.bare, hblocks, hwritten]

theorem Function.checkColors_bare (f : Function) (l : Liveness) (colors : Colors) :
    f.bare.checkColors l colors = f.checkColors l colors := by
  rw [Function.checkColors, Function.checkColors, Interference.build_bare]
  rfl

/-- **Allocated code without its comments** is what allocation makes of code without them. -/
theorem Function.allocateRegisters_bare (h : f.EndsInCode) (l : Liveness) (options : Options) :
    f.bare.allocateRegisters l options =
      (fun r => (r.1.bare, r.2)) <$> f.allocateRegisters l options := by
  funext log
  simp only [Function.allocateRegisters, Function.allocate_bare h, map_bind, bind_map_left]
  refine EStateM.bind_congr_ok fun allocation log' hrounds => ?_
  have hends := endsInCode_of_allocateRounds h hrounds
  simp only [Allocation.bare]
  cases allocation.outcome with
  | error e => rfl
  | ok a =>
    simp only [Function.liveness_bare hends, Function.checkColors_bare, ← Function.bare_assign,
      map_bind]
    refine congrFun (bind_congr fun fresh => ?_) log'
    cases allocation.function.checkColors fresh a.colors <;> rfl

/-! ## Outcomes

Whatever was noted before, allocation gives the same. -/

open Logged (Mirrors)

theorem Function.mirrors_liveness (f : Function) : Mirrors id f.liveness f.liveness :=
  .bind (.ofExcept (id_map _).symm) fun l _ => .bind (.note _ _) fun _ _ => .pure l

theorem mirrors_allocateRounds (colors : List Physical) (failure : Error) (left round : Nat)
    (f : Function) (l : Liveness) :
    Mirrors id (allocateRounds colors failure left round f l)
      (allocateRounds colors failure left round f l) := by
  induction left generalizing round f l with
  | zero => exact .pure _
  | succ left ih =>
    refine .bind f.mirrors_liveness fun live _ => ?_
    simp only [id]
    split
    · exact .bind (.note _ _) fun _ _ => .pure _
    · exact .bind (.note _ _) fun _ _ => ih _ _ _

theorem Function.mirrors_allocateRegisters (f : Function) (l : Liveness) (options : Options) :
    Mirrors id (f.allocateRegisters l options) (f.allocateRegisters l options) := by
  refine .bind (mirrors_allocateRounds _ _ _ _ f l) fun allocation _ => ?_
  simp only [id]
  cases allocation.outcome with
  | error e => exact .pure _
  | ok a =>
    refine .bind allocation.function.mirrors_liveness fun fresh _ => ?_
    simp only [id]
    cases allocation.function.checkColors fresh a.colors <;> exact .pure _

theorem Function.mirrors_allocateRegisters_bare (h : f.EndsInCode) (l : Liveness)
    (options : Options) : Mirrors (fun r => (r.1.bare, r.2)) (f.allocateRegisters l options)
      (f.bare.allocateRegisters l options) := by
  rw [Function.allocateRegisters_bare h]
  exact .map (f.mirrors_allocateRegisters l options)

end MxStar.Machine
