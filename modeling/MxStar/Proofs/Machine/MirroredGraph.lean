import MxStar.Proofs.Flow.CheckedEdges
import MxStar.Proofs.Machine.Convergence

/-!
# Selected code has the graph of its source

Selection puts one block of code in the place of every laid-out block, and the code of a block
ends in its only terminator, which goes to the places of the successors: `Function.Mirrors`.  A
branch that goes to one block on both sides becomes a jump there, which leaves the same edge.
Spilling puts code around the instructions of a block, and an assignment takes moves out, but
neither comes behind a terminator, so the graph stays the same (`Module.sameGraph_ofFlow`).

The edges of the code are read off its terminators, those of the source are what it records.
Successors that pass the check are those of the terminators, but a predecessor may be missing in
the source, and only there the two graphs differ (`Module.predecessors_ofFlow_passage`).
-/

namespace MxStar.Machine

def EndsIn (goes : BlockId → Prop) (code : List Instr) : Prop :=
  ∃ body i, code = body ++ [i] ∧ (∀ j ∈ body, j.isTerminator = false) ∧ i.isTerminator = true ∧
    ∀ target, target ∈ i.targets ↔ goes target

/-- The blocks of the code stand in the places of the laid-out blocks and carry the numbers of these
places and the labels of those blocks, and they go to the places of their successors. -/
def Function.Retraces (f : Function) (source : Flow.Function) : Prop :=
  ∀ (k : Nat) id b, source.layout[k]? = some id → source.blocks.get? id = some b →
    ∃ code, f.blocks.get? ⟨k⟩ = some { id := ⟨k⟩, label := b.label, code } ∧
      EndsIn (fun target => ∃ c ∈ b.successors, source.layout[target.val]? = some c) code

/-- Both ends of an edge record it in the table, and the edges are the successors that `source`
records.  They are the predecessors it records as well, where it leaves none out. -/
def EdgesIn (source : Flow.Function) (table : Table .machineBlock Edges) : Prop :=
  ∀ (j k : Nat) id c b d, source.layout[j]? = some id → source.layout[k]? = some c →
    source.blocks.get? id = some b → source.blocks.get? c = some d →
      (⟨k⟩ ∈ ((table.get? ⟨j⟩).getD {}).successors ↔ c ∈ b.successors) ∧
      (⟨j⟩ ∈ ((table.get? ⟨k⟩).getD {}).predecessors ↔ c ∈ b.successors) ∧
      (id ∈ d.predecessors → ⟨j⟩ ∈ ((table.get? ⟨k⟩).getD {}).predecessors) ∧
      ((⟨j⟩ ∈ ((table.get? ⟨k⟩).getD {}).predecessors ↔ id ∈ d.predecessors) ↔
        (c ∈ b.successors → id ∈ d.predecessors))

/-- The code has the graph that the laid-out blocks of `source` have. -/
structure Function.Mirrors (f : Function) (source : Flow.Function) : Prop where
  size : f.blocks.size = source.layout.length
  entry : f.entry = ⟨0⟩ ∧ source.layout[0]? = some source.entry
  exit : source.layout[f.exit.val]? = some source.exit
  blocks : f.Retraces source
  edges : ∃ table, f.edges = .ok table ∧ EdgesIn source table

/-! ## What keeps the end of a block -/

namespace EndsIn

variable {goes : BlockId → Prop} {code : List Instr}

theorem targets (block : Block) (h : EndsIn goes block.code) (target : BlockId) :
    target ∈ block.targets ↔ goes target := by
  obtain ⟨body, i, hcode, -, hi, htargets⟩ := h
  simp [Block.targets, Block.terminator?, hcode, Option.filter, hi, htargets]

theorem prepend (hfront : ∀ j ∈ front, j.isTerminator = false) (h : EndsIn goes code) :
    EndsIn goes (front ++ code) := by
  obtain ⟨body, i, rfl, hbody, hi, htargets⟩ := h
  exact ⟨front ++ body, i, (List.append_assoc ..).symm, List.forall_mem_append.mpr ⟨hfront, hbody⟩,
    hi, htargets⟩

/-- Spilling puts loads in front of an instruction and stores behind it, and a terminator writes
nothing that is to be stored. -/
theorem spillCode (h : EndsIn goes code) (slots : SpillSlots) (next : Nat) :
    EndsIn goes (Machine.spillCode slots next code).1 := by
  obtain ⟨body, i, rfl, hbody, hi, htargets⟩ := h
  rw [spillCode_append]
  refine prepend (fun j hj => ?_) ?_
  · obtain ⟨k, hk, next', -, -, hj⟩ := exists_of_mem_spillCode hj
    simp only [Instr.spill, List.mem_append, List.mem_singleton] at hj
    rcases hj with (hj | rfl) | hj
    · obtain ⟨p, -, rfl⟩ := List.mem_map.mp hj
      rfl
    · rw [Instr.isTerminator_mapRegisters, hbody k hk]
    · obtain ⟨p, -, rfl⟩ := List.mem_map.mp hj
      rfl
  · have hdefine : i.spilledOperands slots [.define] = [] :=
      Instr.spilledOperands_define_eq_nil (by simp [Instr.writes_of_isTerminator hi])
    simp only [Machine.spillCode, Instr.spill, hdefine, slotTemporaries, List.filterMap_nil,
      List.map_nil, List.append_nil]
    refine ⟨_, _, rfl, fun j hj => ?_, ?_, fun target => ?_⟩
    · obtain ⟨p, -, rfl⟩ := List.mem_map.mp hj
      rfl
    · rw [Instr.isTerminator_mapRegisters, hi]
    · rw [Instr.targets_mapRegisters, htargets]

theorem assign {block : Block} (h : EndsIn goes block.code) (colors : Colors) :
    EndsIn goes (block.assign colors).code := by
  obtain ⟨body, i, hcode, hbody, hi, htargets⟩ := h
  refine ⟨(body.map (·.mapRegisters (replaceBy colors))).filter (!·.isEmptyMove),
    i.mapRegisters (replaceBy colors), ?_, fun j hj => ?_, ?_, fun target => ?_⟩
  · have hkept : (i.mapRegisters (replaceBy colors)).isEmptyMove = false := by
      cases i <;> simp_all [Instr.mapRegisters, Instr.isEmptyMove, Instr.isTerminator]
    simp [Block.assign, hcode, hkept]
  · obtain ⟨k, hk, rfl⟩ := List.mem_map.mp (List.mem_filter.mp hj).1
    rw [Instr.isTerminator_mapRegisters, hbody k hk]
  · rw [Instr.isTerminator_mapRegisters, hi]
  · rw [Instr.targets_mapRegisters, htargets]

end EndsIn

/-! ## What keeps the graph -/

namespace Function

variable {f g : Function} {source : Flow.Function} (hcheck : source.check = .ok ())
include hcheck

theorem Retraces.exists_edges (h : f.Retraces source)
    (hsize : f.blocks.size = source.layout.length) :
    ∃ table, f.edges = .ok table ∧ EdgesIn source table := by
  have hlt : ∀ {k : Nat} {id}, source.layout[k]? = some id → k < f.blocks.size := fun h =>
    hsize ▸ (List.getElem?_eq_some_iff.mp h).1
  -- an edge of the code leads from the place of a block to that of one of its successors
  have hedge : ∀ (j : Nat) id b target, source.layout[j]? = some id →
      source.blocks.get? id = some b → ((⟨j⟩, target) ∈ f.edgeList ↔
        ∃ c ∈ b.successors, source.layout[target.val]? = some c) := by
    intro j id b target hj hb
    obtain ⟨code, hcode, hends⟩ := h j id b hj hb
    rw [mem_edgeList, ← EndsIn.targets { id := ⟨j⟩, label := b.label, code } hends]
    exact ⟨fun ⟨_, h, ht⟩ => Option.mem_unique hcode h ▸ ht, fun ht => ⟨_, hcode, ht⟩⟩
  obtain ⟨table, hedges⟩ : ∃ table, f.edges = .ok table := by
    refine ⟨_, if_pos ?_⟩
    rw [List.all_eq_true]
    rintro ⟨⟨j⟩, target⟩ hmem
    obtain ⟨block, hblock, -⟩ := mem_edgeList.mp hmem
    have hj : j < source.layout.length := hsize ▸ Table.lt_size_of_get? hblock
    obtain ⟨b, hb, -⟩ := Flow.Function.consistent_of_check hcheck (List.getElem_mem hj)
    obtain ⟨c, -, hc⟩ := (hedge j _ b target (List.getElem?_eq_getElem hj) hb).mp hmem
    simpa using hlt hc
  refine ⟨table, hedges, fun j k id c b d hj hk hb hd => ?_⟩
  have hsame : (⟨j⟩, ⟨k⟩) ∈ f.edgeList ↔ c ∈ b.successors := by
    rw [hedge j id b ⟨k⟩ hj hb, hk]
    simp
  have hpreds := ((edges_get? hedges (hlt hk)).2 ⟨j⟩).trans hsame
  have hrecorded : id ∈ d.predecessors → c ∈ b.successors := by
    intro hid
    obtain ⟨d', hd', hconsistent⟩ :=
      Flow.Function.consistent_of_check hcheck (List.mem_of_getElem? hk)
    obtain rfl := Option.mem_unique hd hd'
    obtain ⟨-, b', hb', hc⟩ := hconsistent.predecessors id hid
    exact Option.mem_unique hb hb' ▸ hc
  refine ⟨((edges_get? hedges (hlt hj)).1 ⟨k⟩).trans hsame, hpreds,
    fun hid => hpreds.mpr (hrecorded hid), ?_⟩
  rw [hpreds]
  exact ⟨Iff.mp, fun hcomplete => ⟨hcomplete, hrecorded⟩⟩

variable (h : f.Mirrors source)
include h

/-- **A change within the blocks** that leaves their ends as they are keeps the graph. -/
theorem Mirrors.of_blocks (hsize : g.blocks.size = f.blocks.size) (hentry : g.entry = f.entry)
    (hexit : g.exit = f.exit) (hblocks : ∀ k block, f.blocks.get? k = some block → ∃ code,
      g.blocks.get? k = some { block with code } ∧
        ∀ goes, EndsIn goes block.code → EndsIn goes code) : g.Mirrors source := by
  have hretraces : g.Retraces source := by
    intro k id b hk hb
    obtain ⟨code, hcode, hends⟩ := h.blocks k id b hk hb
    obtain ⟨code', hcode', hkeeps⟩ := hblocks _ _ hcode
    exact ⟨code', hcode', hkeeps _ hends⟩
  exact ⟨hsize.trans h.size, hentry ▸ h.entry, hexit ▸ h.exit, hretraces,
    hretraces.exists_edges hcheck (hsize.trans h.size)⟩

theorem Mirrors.spill (registers : List VirtualId) : (f.spill registers).Mirrors source := by
  refine h.of_blocks hcheck (size_blocks_spill f registers) rfl rfl fun k block hblock => ?_
  obtain ⟨start, -, -, hget⟩ := get?_spill registers hblock
  exact ⟨_, hget, fun _ hends => hends.spillCode _ _⟩

theorem Mirrors.assign (a : Assignment) : (f.assign a).Mirrors source := by
  refine h.of_blocks hcheck (by simp [Function.assign]) rfl rfl fun k block hblock => ?_
  exact ⟨(block.assign a.colors).code, by simp [Function.assign, hblock, Block.assign],
    fun _ hends => hends.assign a.colors⟩

end Function

/-! ## Selection -/

theorem eq_of_getElem?_layout {layout : List Flow.BlockId} (hlayout : layout.Nodup)
    {target : BlockId} (h : layout[target.val]? = some c) (h' : layout[target'.val]? = some c) :
    target = target' := by
  have hlt := (List.getElem?_eq_some_iff.mp h).1
  obtain ⟨k⟩ := target
  obtain ⟨k'⟩ := target'
  exact congrArg Index.mk ((List.getElem?_inj hlt hlayout).mp (h.trans h'.symm))

theorem endsIn_selectBlock {sel : Selector} {id : Flow.BlockId} {b : Flow.Block}
    {piece : BlockId × List Instr} {n n' : Naming} (hlayout : sel.source.layout.Nodup)
    (hb : sel.source.blocks.get? id = some b) (hconsistent : sel.source.Consistent id b)
    (h : sel.selectBlock id b n = .ok (piece, n')) :
    EndsIn (fun target => ∃ c ∈ b.successors, sel.source.layout[target.val]? = some c) piece.2 := by
  obtain ⟨t, body, comment, last, n1, ht, -, hinstrs, hlisting, hlast, hcode⟩ := selectBlock_eq_ok h
  rw [hcode]
  have T := ends_selectTerminator (u := sel.anyUse) le_rfl hlast
  refine .prepend (List.forall_mem_append.mpr ⟨?_, ?_⟩) ?_
  · exact (written_selectInstrs (u := sel.anyUse) le_rfl
      (fun i _ => sel.suits_anyUse i) hinstrs).2.1
  · exact (piece_comment sel.anyUse n1 (sel.Reads []) hlisting).1.plain
  · obtain ⟨front, i, rfl, hfront, hi, hsuccs⟩ := T.last
    refine ⟨front, i, rfl, hfront, hi, fun target => ?_⟩
    simp only [hconsistent.successors, Flow.Function.mem_targets hb ht]
    constructor
    · exact T.targets i (by simp) target
    · -- no other place lists the successor
      rintro ⟨c, hc, hplace⟩
      obtain ⟨target', htarget', hat⟩ := hsuccs c hc
      exact eq_of_getElem?_layout hlayout hplace (getElem?_of_position hat) ▸ htarget'

theorem mirrors_of_select {program : Flow.Program} {source : Flow.Function} {options : Options}
    {f : Function} (hcheck : source.check = .ok ()) (hlayout : source.layout.Nodup)
    (h : Function.ofFlow program source options = .ok f) : f.Mirrors source := by
  let sel : Selector := { program, source, options }
  obtain ⟨blocks, parameters, pieces, n, N, hblocks, hentry, hparams, hpieces, hcode, -, hexit,
    -⟩ := ofFlow_eq_ok h
  have hordered := Flow.Function.forall₂_orderedBlocks hblocks
  obtain ⟨-, -, hsteps⟩ := Select.forall₂_mapM (fun _ _ _ _ hi => grows_selectBlock hi) hpieces
  have hpositions : List.Forall₂ (fun p piece => sel.position p.1 = .ok piece.1) blocks pieces :=
    hsteps.imp fun p piece ⟨_, _, _, hselect, _⟩ => by
      obtain ⟨_, _, _, _, _, _, hat, -⟩ := selectBlock_eq_ok hselect
      exact hat
  have hreceive : ∀ i ∈ parameters, i.isTerminator = false := by
    intro i hi
    obtain ⟨p, -, hreceives⟩ := (forall₂_parameters hparams).2.exists_of_mem_right hi
    obtain ⟨v, -, hwrites⟩ := hreceives.writes
    refine Bool.eq_false_iff.mpr fun hterm => ?_
    simp [Instr.writes_of_isTerminator hterm] at hwrites
  have hsize : f.blocks.size = source.layout.length := by
    rw [Table.size, ← Array.length_toList, hcode]
    simp [hordered.length_eq]
  have hretraces : f.Retraces source := by
    intro k id b hid hb
    obtain ⟨q, hq, rfl, hb'⟩ := hordered.exists_of_getElem? hid
    obtain rfl : q.2 = b := Option.mem_unique hb' hb
    obtain ⟨piece, hpiece, m, m', -, hselect, -⟩ := hsteps.exists_of_getElem? hq
    obtain ⟨b, hfound, hconsistent⟩ :=
      Flow.Function.consistent_of_check hcheck (List.mem_of_getElem? hid)
    obtain rfl := Option.mem_unique hb hfound
    have hlayout : sel.source.layout.Nodup := hlayout
    refine ⟨_, get?_of_pieces hlayout hordered hpositions hcode hq hpiece, .prepend ?_
      (endsIn_selectBlock hlayout hb hconsistent hselect)⟩
    split
    · exact hreceive
    · simp
  have hzero : source.layout[(⟨0⟩ : BlockId).val]? = some source.entry := by
    rw [← List.head?_eq_getElem?, (Flow.Function.check_eq_ok hcheck).1]
  exact ⟨hsize, ⟨eq_of_getElem?_layout hlayout (getElem?_of_position hentry) hzero, hzero⟩,
    getElem?_of_position hexit, hretraces, hretraces.exists_edges hcheck hsize⟩

/-- **The code of a unit has the graphs of its functions**, after any rounds of spilling and with
physical registers in place. -/
theorem Module.sameGraph_ofFlow {program : Flow.Program} {options : Options} {m : Module}
    {log log' : Log} (h : Module.ofFlow program options log = .ok m log') :
    List.Forall₂ (fun source f => source.check = .ok () → source.layout.Nodup →
      ∀ g, Spills f g → g.Mirrors source ∧ ∀ a, (g.assign a).Mirrors source)
      program.allFunctions m.functions := by
  refine (Module.forall₂_ofFlow h).imp fun source f hselect hcheck hlayout g hspills => ?_
  have hmirrors : g.Mirrors source := by
    have hstart := mirrors_of_select hcheck hlayout hselect
    clear hselect
    induction hspills with
    | refl f => exact hstart
    | step registers _ ih => exact ih (hstart.spill hcheck registers)
  exact ⟨hmirrors, hmirrors.assign hcheck⟩

/-- A function that goes to its exit whatever its parameter is. -/
def oneWay : Flow.Function where
  name := "oneWay"
  returnType := .void
  parameters := [⟨0⟩]
  registers := ⟨#[{ ty := .cond }]⟩
  blocks := ⟨#[
    { label := "entry"
      terminator := some (.branch (.register ⟨0⟩) ⟨1⟩ ⟨1⟩)
      successors := Std.ExtTreeSet.ofList [(⟨1⟩ : Flow.BlockId)] },
    { label := "exit"
      terminator := some (.ret none)
      predecessors := Std.ExtTreeSet.ofList [(⟨0⟩ : Flow.BlockId)] }]⟩
  layout := [⟨0⟩, ⟨1⟩]
  exit := ⟨1⟩

/-- The branch becomes a jump, and the edge to the exit stays. -/
theorem Module.sameGraph_ofFlow_oneWay :
    ∃ m log f, Module.ofFlow { functions := [oneWay] } {} #[] = .ok m log ∧
      f ∈ m.functions ∧ f.code = [.mv (.virtual ⟨0⟩) (.physical .a0), .jump ⟨1⟩, .ret false] ∧
      f.Mirrors oneWay ∧ ∀ registers a, ((f.spill registers).assign a).Mirrors oneWay := by
  cases hm : Module.ofFlow { functions := [oneWay] } {} #[] with
  | error e log =>
    have hok : (match Module.ofFlow { functions := [oneWay] } {} #[] with
      | .ok _ _ => true
      | .error _ _ => false) = true := by decide +kernel
    simp [hm] at hok
  | ok m log =>
    have hcode : (match Module.ofFlow { functions := [oneWay] } {} #[] with
      | .ok m _ => m.functions.map Function.code
      | .error _ _ => []) = [[.mv (.virtual ⟨0⟩) (.physical .a0), .jump ⟨1⟩, .ret false]] := by
      decide +kernel
    rw [hm] at hcode
    obtain ⟨f, hf, hmirrors⟩ := (Module.sameGraph_ofFlow hm).exists_of_getElem? (j := 0) rfl
    have hmirrors := hmirrors (by decide +kernel) (by decide)
    refine ⟨m, log, f, rfl, List.mem_of_getElem? hf, ?_, (hmirrors f (.refl f)).1, fun registers =>
      (hmirrors _ (.step registers (.refl _))).2⟩
    have hfirst := congrArg List.head? hcode
    simpa [List.head?_eq_getElem?, List.getElem?_map, hf] using hfirst

/-- **A predecessor that the source does not record.**  The exit of `passage []` records none, which
passes the check, and the block of code in its place has one. -/
theorem Module.predecessors_ofFlow_passage :
    let source := Flow.Function.passage []
    ∃ m log f table d, Module.ofFlow { functions := [source] } {} #[] = .ok m log ∧
      f ∈ m.functions ∧ source.check = .ok () ∧ source.layout.Nodup ∧ f.edges = .ok table ∧
      source.blocks.get? ⟨1⟩ = some d ∧ ⟨0⟩ ∉ d.predecessors ∧
      ⟨0⟩ ∈ ((table.get? ⟨1⟩).getD {}).predecessors := by
  intro source
  have hfacts : (Module.ofFlow { functions := [source] } {} #[]).passes (fun m =>
      m.functions.length == 1 && m.functions.all fun f => f.edges.toOption.any fun table =>
        ((table.get? ⟨1⟩).getD {}).predecessors.contains ⟨0⟩) = true := by decide +kernel
  obtain ⟨m, log, hm, hfacts⟩ := EStateM.exists_of_passes hfacts
  rw [Bool.and_eq_true, List.all_eq_true, beq_iff_eq] at hfacts
  obtain ⟨f, hmem⟩ := List.exists_mem_of_length_pos (by omega : 0 < m.functions.length)
  have hf := hfacts.2 f hmem
  cases hedges : f.edges with
  | error e => simp [hedges, Except.toOption] at hf
  | ok table =>
    simp only [hedges, Except.toOption, Option.any_some] at hf
    exact ⟨m, log, f, table, _, hm, hmem, Flow.Function.check_passage (by decide +kernel),
      by decide, hedges, rfl, by decide +kernel, Std.ExtTreeSet.mem_iff_contains.mpr hf⟩

end MxStar.Machine
