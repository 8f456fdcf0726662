import MxStar.Proofs.Flow.LoweredUnit
import MxStar.Proofs.Source.Declared

/-!
# Labels of blocks and names of functions

Blocks are numbered through the whole unit, and the number of a block is the end of its
label.  What stands in front of it has no digit, so the number can be read off the label,
and no two blocks of a unit have the same label.

Functions are named after what they were built from.  A dot sets the class of a method off
from its name, so two symbols are the same only if a class has its own name for a method
besides its constructor.
-/

namespace MxStar.Flow

open Source (Symbols Definition)

/-! ## Numbers at the end of a label -/

variable {tag name : String} {n : Nat} {f : Function}

theorem not_isDigit_of_mem_blockTags (h : tag ∈ blockTags) :
    ∀ c ∈ tag.toList, c.isDigit = false ∧ c ≠ '.' := by
  have hall : blockTags.all (fun tag => tag.toList.all fun c => !c.isDigit && c != '.') = true := by
    decide +kernel
  intro c hc
  simpa using List.all_eq_true.mp (List.all_eq_true.mp hall tag h) c hc

theorem isDigit_of_mem_repr (h : c ∈ (toString n).toList) : c.isDigit = true := by
  rw [Nat.toString_eq_repr, Nat.repr, String.toList_ofList] at h
  exact Nat.isDigit_of_mem_toDigits (by decide) (by decide) h

def numbered (tag : String) (n : Nat) : String :=
  s!"{tag}{n}"

theorem toList_numbered (tag : String) (n : Nat) :
    (numbered tag n).toList = tag.toList ++ (toString n).toList :=
  String.toList_append

theorem eq_of_numbered_eq (htag : tag ∈ blockTags) (htag' : tag' ∈ blockTags)
    (h : numbered tag n = numbered tag' n') : n = n' := by
  have hdrop : ∀ {tag : String} {n : Nat}, tag ∈ blockTags →
      (numbered tag n).toList.dropWhile (fun c => !c.isDigit) = (toString n).toList := by
    intro tag n htag
    rw [toList_numbered, List.dropWhile_append_of_pos]
    · rw [List.dropWhile_eq_self_iff]
      intro hlen
      rw [isDigit_of_mem_repr (List.getElem_mem hlen)]
      decide
    · intro c hc
      simp [(not_isDigit_of_mem_blockTags htag c hc).1]
  have hdigits : (toString n).toList = (toString n').toList := by
    rw [← hdrop htag, ← hdrop htag', h]
  exact Nat.repr_inj.mp (String.toList_inj.mp hdigits)

/-! ## Blocks -/

structure Builder.Numbered (first : Nat) (s : Builder) : Prop where
  next : s.nextLabel = first + s.function.blocks.size
  labels : ∀ id b, s.function.blocks.get? id = some b →
    ∃ tag ∈ blockTags, b.label = numbered tag (first + id.val)

def Function.Numbered (first : Nat) (f : Function) : Prop :=
  ∀ id b, f.blocks.get? id = some b → ∃ tag ∈ blockTags, b.label = numbered tag (first + id.val)

section

variable {V : Vocabulary} {s s' : Builder} {first : Nat}

theorem Builder.Numbered.change (h : s.Numbered first) {edit : Block → Block}
    (hedit : ∀ b, (edit b).label = b.label) : (s.change edit).Numbered first := by
  refine ⟨by simpa [Builder.change] using h.next, fun id b hb => ?_⟩
  simp only [Builder.change, Table.get?_modify] at hb
  split at hb
  · obtain ⟨b0, hb0, rfl⟩ := Option.map_eq_some_iff.mp hb
    rw [hedit]
    exact h.labels id b0 hb0
  · exact h.labels id b hb

theorem Move.numbered (hmove : Move V s s') (h : s.Numbered first) : s'.Numbered first := by
  cases hmove with
  | block tag terminator htag hterm =>
    refine ⟨by simp [h.next, Nat.add_assoc], fun id b hb => ?_⟩
    simp only [Table.get?_push] at hb
    split at hb
    · rename_i hid
      cases hb
      refine ⟨tag, htag, ?_⟩
      rw [hid, h.next]
      rfl
    · exact h.labels id b hb
  | code phrase hphrase =>
    refine h.change fun b => ?_
    unfold Block.write
    split <;> rfl
  | finish t hknown =>
    refine h.change fun b => ?_
    unfold Block.close
    split <;> rfl
  | _ => exact ⟨h.next, h.labels⟩

theorem Moves.numbered (hmoves : Moves V s s') (h : s.Numbered first) : s'.Numbered first := by
  induction hmoves with
  | refl => exact h
  | tail _ hmove ih => exact hmove.numbered ih

theorem Function.label_foldl_link (edges : List (BlockId × BlockId)) (blocks : Table .block Block) :
    (edges.foldl Function.link blocks).map Block.label = blocks.map Block.label := by
  induction edges generalizing blocks with
  | nil => rfl
  | cons edge rest ih =>
    rw [List.foldl_cons, ih]
    refine Table.ext_get? fun id => ?_
    simp only [Function.link, Table.get?_map, Table.get?_modify]
    split <;> split <;> cases blocks.get? id <;> rfl

theorem Function.label_rebuildEdges (h : f.rebuildEdges = .ok g) :
    g.blocks.map Block.label = f.blocks.map Block.label := by
  obtain ⟨edges, -, rfl⟩ := Except.bind_pure_eq_ok.mp h
  rw [Function.label_foldl_link]
  refine Table.ext_get? fun id => ?_
  simp only [Table.get?_map]
  cases f.blocks.get? id <;> rfl

theorem numbered_openedBlocks (label : Nat) {id : BlockId}
    (hb : (openedBlocks label).get? id = some b) :
    ∃ tag ∈ blockTags, b.label = numbered tag (label + id.val) := by
  rcases id with ⟨_ | _ | n⟩
  · cases hb
    exact ⟨"entry", by decide, rfl⟩
  · cases hb
    exact ⟨"exit", by decide, rfl⟩
  · simp [openedBlocks, Table.get?] at hb

theorem Body.numbered (h : Body V unit unit' source f) :
    f.Numbered unit.nextLabel ∧ unit'.nextLabel = unit.nextLabel + f.blocks.size := by
  obtain ⟨opened, closed, hblocks, -, hlabel, hmoves, ⟨layout, hedges⟩, -, hlabel'⟩ := h.moves
  have hopened : opened.Numbered unit.nextLabel :=
    ⟨by rw [hlabel, hblocks]; rfl, fun id b hb => numbered_openedBlocks _ (hblocks ▸ hb)⟩
  have hclosed := hmoves.numbered hopened
  have hlabels := Function.label_rebuildEdges hedges
  refine ⟨fun id b hb => ?_, ?_⟩
  · have hfound := congrArg (fun t => t.get? id) hlabels
    simp only [Table.get?_map, hb, Option.map_some] at hfound
    obtain ⟨b0, hb0, hb0'⟩ := Option.map_eq_some_iff.mp hfound.symm
    rw [← hb0']
    exact hclosed.labels id b0 hb0
  · rw [hlabel', hclosed.next, (Function.sameCode_of_rebuildEdges hedges).size]

end

/-! ## Labels of a unit -/

/-- Distinct labels of blocks whose numbers are at least `low` and below `high`. -/
structure LabelsWithin (low high : Nat) (labels : List String) : Prop where
  le : low ≤ high
  nodup : labels.Nodup
  within : ∀ label ∈ labels, ∃ tag ∈ blockTags, ∃ n, low ≤ n ∧ n < high ∧ label = numbered tag n

theorem LabelsWithin.append {labels : List String} (h : LabelsWithin low middle labels)
    (h' : LabelsWithin middle high labels') : LabelsWithin low high (labels ++ labels') where
  le := h.le.trans h'.le
  nodup := by
    refine List.nodup_append.mpr ⟨h.nodup, h'.nodup, fun a ha b hb heq => ?_⟩
    obtain ⟨tag, htag, n, -, hlt, rfl⟩ := h.within a ha
    obtain ⟨tag', htag', n', hle, -, rfl⟩ := h'.within b hb
    have := eq_of_numbered_eq htag htag' heq
    omega
  within := by
    intro label hlabel
    rcases List.mem_append.mp hlabel with hlabel | hlabel
    · obtain ⟨tag, htag, n, hle, hlt, heq⟩ := h.within label hlabel
      exact ⟨tag, htag, n, hle, hlt.trans_le h'.le, heq⟩
    · obtain ⟨tag, htag, n, hle, hlt, heq⟩ := h'.within label hlabel
      exact ⟨tag, htag, n, h.le.trans hle, hlt, heq⟩

def Function.laidLabels (f : Function) : List String :=
  f.layout.filterMap fun id => (f.blocks.get? id).map Block.label

theorem Function.Numbered.laidLabels (h : f.Numbered first) (hlayout : f.layout.Nodup) :
    LabelsWithin first (first + f.blocks.size) f.laidLabels where
  le := Nat.le_add_right _ _
  nodup := by
    refine hlayout.filterMap fun id id' label hlabel hlabel' => ?_
    obtain ⟨b, hb, rfl⟩ := Option.map_eq_some_iff.mp hlabel
    obtain ⟨b', hb', heq⟩ := Option.map_eq_some_iff.mp hlabel'
    obtain ⟨tag, htag, hnumber⟩ := h id b hb
    obtain ⟨tag', htag', hnumber'⟩ := h id' b' hb'
    have hval := eq_of_numbered_eq htag htag' (hnumber.symm.trans (heq.symm.trans hnumber'))
    cases id
    cases id'
    simp only at hval
    rw [Nat.add_left_cancel hval]
  within := by
    intro label hlabel
    obtain ⟨id, -, hid⟩ := List.mem_filterMap.mp hlabel
    obtain ⟨b, hb, rfl⟩ := Option.map_eq_some_iff.mp hid
    obtain ⟨tag, htag, hnumber⟩ := h id b hb
    have hlt := Table.lt_size_of_get? hb
    exact ⟨tag, htag, _, Nat.le_add_right _ _, by omega, hnumber⟩

theorem Bodies.labelsWithin (h : Bodies V unit sources fs unit')
    (hlayout : ∀ f ∈ fs, f.layout.Nodup) :
    LabelsWithin unit.nextLabel unit'.nextLabel (fs.flatMap Function.laidLabels) := by
  induction h with
  | nil _ hlabel => exact ⟨hlabel.ge, List.nodup_nil, by simp⟩
  | cons head _ ih =>
    obtain ⟨hnumbered, hnext⟩ := head.numbered
    have hfirst := hnumbered.laidLabels (hlayout _ (.head _))
    rw [← hnext] at hfirst
    exact hfirst.append (ih fun f hf => hlayout f (.tail _ hf))

/-! ## Names of functions -/

/-- A name without a dot that does not begin with an underscore.  Every word of letters,
digits and underscores that begins with a letter is one. -/
structure IsPlain (name : String) : Prop where
  nonempty : name ≠ ""
  noDot : '.' ∉ name.toList
  noUnderscore : name.toList.head? ≠ some '_'

instance (name : String) : Decidable (IsPlain name) :=
  decidable_of_iff (name ≠ "" ∧ '.' ∉ name.toList ∧ name.toList.head? ≠ some '_')
    ⟨fun ⟨h1, h2, h3⟩ => ⟨h1, h2, h3⟩, fun h => ⟨h.nonempty, h.noDot, h.noUnderscore⟩⟩

theorem toList_methodSymbol (className method : String) :
    (Linkage.methodSymbol className method).toList = className.toList ++ '.' :: method.toList := by
  simp [Linkage.methodSymbol]

theorem dot_mem_methodSymbol (className method : String) :
    '.' ∈ (Linkage.methodSymbol className method).toList := by
  rw [toList_methodSymbol]
  exact List.mem_append_right _ (.head _)

theorem methodSymbol_inj (h : '.' ∉ className.toList) (h' : '.' ∉ className'.toList)
    (heq : Linkage.methodSymbol className method = Linkage.methodSymbol className' method') :
    className = className' ∧ method = method' := by
  have hlist := congrArg String.toList heq
  rw [toList_methodSymbol, toList_methodSymbol] at hlist
  have htake : ∀ {l : List Char} (rest : List Char), '.' ∉ l →
      (l ++ '.' :: rest).takeWhile (fun c => c != '.') = l := by
    intro l rest hl
    rw [List.takeWhile_append_of_pos, List.takeWhile_cons_of_neg (by simp), List.append_nil]
    intro c hc
    rw [bne_iff_ne]
    rintro rfl
    exact hl hc
  have hclass : className.toList = className'.toList := by
    rw [← htake method.toList h, hlist, htake _ h']
  rw [hclass] at hlist
  exact ⟨String.toList_inj.mp hclass,
    String.toList_inj.mp (List.cons.inj (List.append_cancel_left hlist)).2⟩

def bodySymbol (b : Option String × Source.FunctionDef) : String :=
  (bodySource b.1 b.2).name

def ConstructorsApart (p : Source.Program) : Prop :=
  ∀ c, .object c ∈ p → c.constructor.isSome → ∀ m ∈ c.methods, m.name ≠ c.name

/-- The names that become part of a label: those of functions, classes, methods and
global variables. -/
def labelNames : Definition → List String
  | .function f => [f.name]
  | .object c => c.name :: c.methods.map Source.FunctionDef.name
  | .globals vars => vars.declarators.map Source.Declarator.name

def definitionSymbols (d : Definition) : List String :=
  (definitionBodies d).map bodySymbol

theorem definitionSymbols_object (c : Source.ClassDef) : definitionSymbols (.object c) =
      (c.constructor.toList.map (fun _ => c.name) ++ c.methods.map Source.FunctionDef.name).map
        (Linkage.methodSymbol c.name) := by
  simp [definitionSymbols, definitionBodies, classBodies, bodySymbol, bodySource, Function.comp_def]

theorem nodup_definitionSymbols_object (hdot : '.' ∉ c.name.toList)
    (hmethods : (c.methods.map Source.FunctionDef.name).Nodup) :
    (definitionSymbols (.object c)).Nodup ↔
      (c.constructor.isSome → ∀ m ∈ c.methods, m.name ≠ c.name) := by
  have hinj : Function.Injective (Linkage.methodSymbol c.name) :=
    fun _ _ heq => (methodSymbol_inj hdot hdot heq).2
  rw [definitionSymbols_object, List.nodup_map_iff hinj]
  cases c.constructor with
  | none => simpa using hmethods
  | some body => simp [hmethods]

section

variable {p : Source.Program} {symbols : Symbols}

theorem disjoint_definitionSymbols (hplain : ∀ name ∈ labelNames d, IsPlain name)
    (hplain' : ∀ name ∈ labelNames d', IsPlain name)
    (hfuns : ∀ f f', d = .function f → d' = .function f' → f.name ≠ f'.name)
    (hclasses : ∀ c c', d = .object c → d' = .object c' → c.name ≠ c'.name) :
    (definitionSymbols d).Disjoint (definitionSymbols d') := by
  intro symbol hsymbol hsymbol'
  cases d with
  | function f =>
    obtain rfl := List.mem_singleton.mp hsymbol
    cases d' with
    | function f' => exact hfuns f f' rfl rfl (List.mem_singleton.mp hsymbol')
    | object c =>
      rw [definitionSymbols_object] at hsymbol'
      obtain ⟨method, -, heq⟩ := List.mem_map.mp hsymbol'
      refine (hplain f.name (.head _)).noDot ?_
      have hdot := dot_mem_methodSymbol c.name method
      rw [heq] at hdot
      exact hdot
    | globals vars => simp [definitionSymbols, definitionBodies] at hsymbol'
  | object c =>
    rw [definitionSymbols_object] at hsymbol
    obtain ⟨method, -, rfl⟩ := List.mem_map.mp hsymbol
    cases d' with
    | function f' =>
      have heq : Linkage.methodSymbol c.name method = f'.name := List.mem_singleton.mp hsymbol'
      exact (hplain' f'.name (.head _)).noDot (heq ▸ dot_mem_methodSymbol c.name method)
    | object c' =>
      rw [definitionSymbols_object] at hsymbol'
      obtain ⟨method', -, heq⟩ := List.mem_map.mp hsymbol'
      refine hclasses c c' rfl rfl (methodSymbol_inj ?_ ?_ heq.symm).1
      · exact (hplain c.name (.head _)).noDot
      · exact (hplain' c'.name (.head _)).noDot
    | globals vars => simp [definitionSymbols, definitionBodies] at hsymbol'
  | globals vars => simp [definitionSymbols, definitionBodies] at hsymbol

/-- **The functions of a program have different symbols** exactly if no class has a method
of its own name besides a constructor. -/
theorem nodup_symbols_iff (hsyms : symbols.Holds p)
    (hplain : ∀ d ∈ p, ∀ name ∈ labelNames d, IsPlain name) :
    ((p.flatMap definitionBodies).map bodySymbol).Nodup ↔ ConstructorsApart p := by
  have hpairwise : p.Pairwise fun d d' =>
      (definitionSymbols d).Disjoint (definitionSymbols d') := by
    have hfuns := List.pairwise_filterMap.mp hsyms.functions.nodup
    have hclasses := List.pairwise_filterMap.mp hsyms.classes.nodup
    refine (hfuns.and hclasses).imp_of_mem fun {d d'} hd hd' hnames => ?_
    refine disjoint_definitionSymbols (hplain d hd) (hplain d' hd') ?_ ?_
    · rintro f f' rfl rfl
      exact hnames.1 f.name rfl f'.name rfl
    · rintro c c' rfl rfl
      exact hnames.2 c.name rfl c'.name rfl
  have hnodup : ∀ c, .object c ∈ p → ((definitionSymbols (.object c)).Nodup ↔
      (c.constructor.isSome → ∀ m ∈ c.methods, m.name ≠ c.name)) := by
    intro c hc
    obtain ⟨info, hinfo⟩ := hsyms.infos c hc
    exact nodup_definitionSymbols_object (hplain _ hc c.name (.head _)).noDot
      (Source.ClassDef.info_eq_ok hinfo).2.2.2.nodup
  rw [List.map_flatMap]
  refine List.nodup_flatMap.trans ⟨fun h c hc => (hnodup c hc).mp (h.1 _ hc),
    fun h => ⟨?_, hpairwise⟩⟩
  intro d hd
  cases d with
  | function f => exact List.nodup_singleton _
  | object c => exact (hnodup c hd).mpr (h c hd)
  | globals vars => exact List.nodup_nil

def GlobalsApart (p : Source.Program) : Prop :=
  ∀ f, .function f ∈ p → f.name ∉ p.globalVariables.map Prod.fst

theorem mem_symbols (h : symbol ∈ (p.flatMap definitionBodies).map bodySymbol) :
    (∃ f, .function f ∈ p ∧ symbol = f.name) ∨
      ∃ c method, .object c ∈ p ∧ symbol = Linkage.methodSymbol c.name method := by
  rw [List.map_flatMap] at h
  obtain ⟨d, hd, hsymbol⟩ := List.mem_flatMap.mp h
  cases d with
  | function f => exact .inl ⟨f, hd, List.mem_singleton.mp hsymbol⟩
  | object c =>
    rw [show (definitionBodies (.object c)).map bodySymbol = definitionSymbols (.object c) from rfl,
      definitionSymbols_object] at hsymbol
    obtain ⟨method, -, rfl⟩ := List.mem_map.mp hsymbol
    exact .inr ⟨c, method, hd, rfl⟩
  | globals vars => simp [definitionBodies] at hsymbol

theorem isPlain_of_globalVariables (hplain : ∀ d ∈ p, ∀ name ∈ labelNames d, IsPlain name)
    (h : name ∈ p.globalVariables.map Prod.fst) : IsPlain name := by
  obtain ⟨v, hv, rfl⟩ := List.mem_map.mp h
  obtain ⟨d, hd, hv⟩ := List.mem_flatMap.mp hv
  cases d with
  | globals vars =>
    obtain ⟨declarator, hdeclarator, rfl⟩ := List.mem_map.mp hv
    exact hplain _ hd declarator.name (List.mem_map_of_mem hdeclarator)
  | _ => simp at hv

theorem head?_methodSymbol (h : className ≠ "") (method : String) :
    (Linkage.methodSymbol className method).toList.head? = className.toList.head? := by
  rw [toList_methodSymbol, List.head?_append_of_ne_nil]
  simpa using h

variable (hplain : ∀ d ∈ p, ∀ name ∈ labelNames d, IsPlain name)
include hplain

theorem symbol_apart (h : symbol ∈ (p.flatMap definitionBodies).map bodySymbol) :
    symbol.toList.head? ≠ some '.' ∧ symbol ≠ Linkage.globalInitializer := by
  have hplainHead : ∀ {name : String}, IsPlain name → name.toList.head? ≠ some '.' :=
    fun hname hdot => hname.noDot (List.mem_of_head? hdot)
  have hname : ∃ name, IsPlain name ∧ symbol.toList.head? = name.toList.head? := by
    rcases mem_symbols h with ⟨f, hf, rfl⟩ | ⟨c, method, hc, rfl⟩
    · exact ⟨f.name, hplain _ hf _ (.head _), rfl⟩
    · have hclass := hplain _ hc c.name (.head _)
      exact ⟨c.name, hclass, head?_methodSymbol hclass.nonempty method⟩
  obtain ⟨name, hname, hhead⟩ := hname
  refine ⟨hhead ▸ hplainHead hname, ?_⟩
  rintro rfl
  exact hname.noUnderscore (hhead ▸ by decide +kernel)

theorem disjoint_globals_iff :
    (p.globalVariables.map Prod.fst).Disjoint ((p.flatMap definitionBodies).map bodySymbol) ↔
      GlobalsApart p := by
  constructor
  · intro h f hf hglobal
    exact h hglobal (List.mem_map.mpr ⟨(none, f), List.mem_flatMap.mpr ⟨_, hf, by
      simp [definitionBodies]⟩, rfl⟩)
  · intro h name hglobal hsymbol
    rcases mem_symbols hsymbol with ⟨f, hf, rfl⟩ | ⟨c, method, -, rfl⟩
    · exact h f hf hglobal
    · exact (isPlain_of_globalVariables hplain hglobal).noDot (dot_mem_methodSymbol _ _)

end

/-! ## Names and blocks of a unit -/

section

variable {p : Source.Program} {symbols : Symbols} {unit unit' : UnitState} {program : Program}

def Program.names (program : Program) : List String :=
  program.globals.map Global.name ++ program.allFunctions.map Function.name

theorem globalNames_of_lowerUnit (h : lowerUnit p symbols unit = .ok program unit') :
    program.globals.map Global.name = p.globalVariables.map Prod.fst ∧
      (program.globals.map Global.name).Nodup := by
  obtain ⟨placed, unit1, hplaced, hglobals, -⟩ := lowers_of_lowerUnit h
  have hvariables := congrArg (List.map Prod.fst) (variables_placeGlobals hplaced)
  rw [List.map_map, List.map_map] at hvariables
  rw [hglobals]
  exact ⟨hvariables, (records_placeGlobals hplaced).nodup⟩

theorem mem_names (h : lowerUnit p symbols unit = .ok program unit')
    (hname : name ∈ program.names) :
    name = Linkage.globalInitializer ∨ name ∈ p.globalVariables.map Prod.fst ∨
      name ∈ (p.flatMap definitionBodies).map bodySymbol := by
  obtain ⟨hfuns, hinit⟩ := names_of_lowerUnit h
  rcases List.mem_append.mp hname with hname | hname
  · exact .inr (.inl ((globalNames_of_lowerUnit h).1 ▸ hname))
  · obtain ⟨f, hf, rfl⟩ := List.mem_map.mp hname
    rcases List.mem_append.mp hf with hf | hf
    · exact .inl (hinit f (by simpa using hf))
    · exact .inr (.inr (hfuns ▸ List.mem_map_of_mem hf))

theorem head?_ne_dot_of_mem_names (hplain : ∀ d ∈ p, ∀ name ∈ labelNames d, IsPlain name)
    (h : lowerUnit p symbols unit = .ok program unit') (hname : name ∈ program.names) :
    name.toList.head? ≠ some '.' := by
  rcases mem_names h hname with rfl | hname | hname
  · decide +kernel
  · exact fun hdot => (isPlain_of_globalVariables hplain hname).noDot (List.mem_of_head? hdot)
  · exact (symbol_apart hplain hname).1

/-- **The globals and functions of a unit have different names** exactly if no function has
the name of a global and no class has a method of its own name besides a constructor. -/
theorem nodup_names_iff (hsyms : symbols.Holds p)
    (hplain : ∀ d ∈ p, ∀ name ∈ labelNames d, IsPlain name)
    (h : lowerUnit p symbols unit = .ok program unit') :
    program.names.Nodup ↔ GlobalsApart p ∧ ConstructorsApart p := by
  obtain ⟨hglobals, hnodup⟩ := globalNames_of_lowerUnit h
  obtain ⟨hfuns, hinit⟩ := names_of_lowerUnit h
  have hfirst : ∀ name ∈ program.initializer.toList.map Function.name,
      name = Linkage.globalInitializer := by
    intro name hname
    obtain ⟨f, hf, rfl⟩ := List.mem_map.mp hname
    exact hinit f (by simpa using hf)
  have hbodies : program.functions.map Function.name =
      (p.flatMap definitionBodies).map bodySymbol := hfuns
  have hsymbol : (program.initializer.toList.map Function.name).Disjoint
      ((p.flatMap definitionBodies).map bodySymbol) :=
    fun name hname hbody => (symbol_apart hplain hbody).2 (hfirst name hname)
  have hglobal : (p.globalVariables.map Prod.fst).Disjoint
      (program.initializer.toList.map Function.name) := by
    intro name hname hstart
    obtain rfl := hfirst name hstart
    exact (isPlain_of_globalVariables hplain hname).noUnderscore (by decide +kernel)
  have honce : (program.initializer.toList.map Function.name).Nodup := by
    cases program.initializer <;> simp
  rw [Program.names, Program.allFunctions, List.map_append, hbodies, hglobals, List.nodup_append',
    List.nodup_append', List.disjoint_append_right, nodup_symbols_iff hsyms hplain,
    disjoint_globals_iff hplain]
  rw [hglobals] at hnodup
  tauto

theorem labelsWithin_of_lowerUnit (h : lowerUnit p symbols unit = .ok program unit')
    (hlayout : ∀ f ∈ program.allFunctions, f.layout.Nodup) :
    LabelsWithin unit.nextLabel unit'.nextLabel
      (program.allFunctions.flatMap Function.laidLabels) := by
  obtain ⟨placed, unit1, -, -, -, -, hinit, hfuns⟩ := lowers_of_lowerUnit h
  rw [Program.allFunctions, List.flatMap_append]
  refine (hinit.bodies.labelsWithin fun f hf => ?_).append
    (hfuns.bodies.labelsWithin fun f hf => ?_)
  · exact hlayout f (List.mem_append_left _ hf)
  · exact hlayout f (List.mem_append_right _ hf)

end

end MxStar.Flow
