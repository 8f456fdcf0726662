import Mathlib
import MxStar.Proofs.Logged
import MxStar.Source.Symbols

/-!
# What a symbol table holds

A program is collected definition by definition, and so are the methods of a class.  Each
time the collection goes on as long as names are new (`Except.foldlM_cases`), and what has
been read so far is what the table lists.  A table that was collected from a program thus
holds its functions and classes and nothing else, and each family of names it keeps apart
has no name twice: the functions, the classes, and the methods of each class.

`Symbols.collect_spec` says for every program whether it is collected, what the table then
answers, and which definition is reported if it is not.
-/

theorem Except.foldlM_cases {ε α β : Type} {f : β → α → Except ε β} {I : List α → β → Prop} {b : β}
    (hstart : I [] b) (hstep : ∀ read a b b', I read b → f b a = .ok b' → I (read ++ [a]) b')
    (l : List α) :
    (∃ b', l.foldlM f b = .ok b' ∧ I l b') ∨
      ∃ read a rest b' e, l = read ++ a :: rest ∧ I read b' ∧ f b' a = .error e ∧
        l.foldlM f b = .error e := by
  induction l using List.reverseRecOn with
  | nil => exact .inl ⟨b, rfl, hstart⟩
  | append_singleton l a ih =>
    rw [List.foldlM_append]
    rcases ih with ⟨b', hfold, hI⟩ | ⟨read, a', rest, b', e, rfl, hI, herror, hfold⟩
    · rw [hfold]
      cases ha : f b' a with
      | ok b'' => exact .inl ⟨b'', by simp [bind, Except.bind, pure, Except.pure, ha],
          hstep l a b' b'' hI ha⟩
      | error e => exact .inr ⟨l, a, [], b', e, rfl, hI, ha, by simp [bind, Except.bind, ha]⟩
    · rw [hfold]
      exact .inr ⟨read, a', rest ++ [a], b', e, by simp, hI, herror, rfl⟩

namespace MxStar.Source

def Program.functionNames (p : Program) : List String :=
  p.filterMap fun
    | .function f => some f.name
    | _ => none

def Program.classNames (p : Program) : List String :=
  p.filterMap fun
    | .object c => some c.name
    | _ => none

variable {name : String} {c : ClassDef} {d : Definition}

theorem Program.mem_functionNames {p : Program} :
    name ∈ p.functionNames ↔ ∃ f, .function f ∈ p ∧ f.name = name := by
  rw [functionNames, List.mem_filterMap]
  constructor
  · rintro ⟨d, hd, hname⟩
    cases d with
    | function f => exact ⟨f, hd, Option.some.inj hname⟩
    | _ => cases hname
  · rintro ⟨f, hf, rfl⟩
    exact ⟨_, hf, rfl⟩

/-! ## Tables of different names -/

/-- A table has the given names, all of them different, and `entry` tells what stands under
each of them. -/
structure Dictionary.Lists {α : Type} (table : Dictionary α) (names : List String)
    (entry : String → α → Prop) : Prop where
  nodup : names.Nodup
  mem : ∀ name, name ∈ table ↔ name ∈ names
  get? : ∀ (name : String) a, table[name]? = some a ↔ entry name a

namespace Dictionary.Lists

variable {α : Type} {entry : String → α → Prop}

theorem empty (h : ∀ name a, ¬ entry name a) : Lists ∅ [] entry := ⟨.nil, by simp, by simpa using h⟩

theorem insert (h : Lists table names entry) (hnew : ¬ table.contains name)
    {entry' : String → α → Prop}
    (hentry : ∀ other b, entry' other b ↔ entry other b ∨ other = name ∧ b = a) :
    Lists (table.insert name a) (names ++ [name]) entry' := by
  rw [Std.ExtTreeMap.contains_iff_mem] at hnew
  refine ⟨?_, fun other => ?_, fun other b => ?_⟩
  · have hname := (h.mem name).not.mp hnew
    exact List.nodup_append.mpr ⟨h.nodup, List.nodup_singleton name, by grind⟩
  · rw [Std.ExtTreeMap.mem_insert, h.mem, Std.compare_eq_iff_eq]
    simp [or_comm, eq_comm]
  · simp only [Std.ExtTreeMap.getElem?_insert, hentry, ← h.get? other b, Std.compare_eq_iff_eq]
    by_cases hother : name = other
    · subst hother
      simp [Std.ExtTreeMap.getElem?_eq_none hnew, eq_comm]
    · simp [hother, Ne.symm hother]

theorem get?_eq_none (h : Lists table names entry) (hname : name ∉ names) : table[name]? = none :=
  Std.ExtTreeMap.getElem?_eq_none ((h.mem name).not.mpr hname)

end Dictionary.Lists

/-! ## Methods -/

def ClassDef.addMethod (c : ClassDef) (table : Dictionary Signature) (method : FunctionDef) :
    Except Error (Dictionary Signature) :=
  if table.contains method.name then
    .error (.duplicateDefinition (c.name ++ "." ++ method.name))
  else
    .ok (table.insert method.name method.signature)

abbrev Dictionary.ListsMethods (table : Dictionary Signature) (methods : List FunctionDef) : Prop :=
  Lists table (methods.map FunctionDef.name)
    fun name signature => ∃ m ∈ methods, m.name = name ∧ m.signature = signature

theorem Dictionary.ListsMethods.addMethod {methods : List FunctionDef}
    (h : ListsMethods table methods) (hadd : c.addMethod table m = .ok table') :
    ListsMethods table' (methods ++ [m]) := by
  unfold ClassDef.addMethod at hadd
  split at hadd
  · cases hadd
  · cases hadd
    rw [ListsMethods, List.map_append]
    refine h.insert ‹_› fun name signature => ?_
    simp [or_and_right, exists_or, eq_comm]

theorem ClassDef.methodTable_cases (c : ClassDef) :
    (∃ table, c.methodTable = .ok table ∧ Dictionary.ListsMethods table c.methods) ∨
    ∃ before m after, c.methods = before ++ m :: after ∧
      (before.map FunctionDef.name).Nodup ∧ m.name ∈ before.map FunctionDef.name ∧
      c.methodTable = .error (.duplicateDefinition (c.name ++ "." ++ m.name)) := by
  rcases Except.foldlM_cases (f := c.addMethod) (b := ∅)
    (I := fun methods table => Dictionary.ListsMethods table methods) (.empty (by simp))
    (fun _ _ _ _ h hadd => h.addMethod hadd) c.methods with
    hok | ⟨before, m, after, table, e, hmethods, h, hadd, hfold⟩
  · exact .inl hok
  · unfold addMethod at hadd
    split at hadd
    · rename_i hmem
      obtain rfl := Except.error.inj hadd
      rw [Std.ExtTreeMap.contains_iff_mem, h.mem] at hmem
      exact .inr ⟨before, m, after, hmethods, h.nodup, hmem, hfold⟩
    · cases hadd

theorem ClassDef.info_eq_ok {info : ClassInfo} (h : c.info = .ok info) :
    info.name = c.name ∧ info.hasConstructor = c.constructor.isSome ∧
      info.members = c.memberTypes ∧ Dictionary.ListsMethods info.methods c.methods := by
  obtain ⟨methods, hmethods, rfl⟩ := Except.bind_pure_eq_ok.mp h
  rcases c.methodTable_cases with ⟨table, htable, hlists⟩ | ⟨_, _, _, -, -, -, herror⟩
  · obtain rfl := Except.ok.inj (hmethods.symm.trans htable)
    exact ⟨rfl, rfl, rfl, hlists⟩
  · cases hmethods.symm.trans herror

/-! ## Symbols -/

/-- A table holds the functions and classes of a program and nothing else, and the program
declares no name of a family twice. -/
structure Symbols.Holds (symbols : Symbols) (p : Program) : Prop where
  functions : Dictionary.Lists symbols.functions p.functionNames fun name signature =>
    ∃ f, .function f ∈ p ∧ f.name = name ∧ f.signature = signature
  classes : Dictionary.Lists symbols.classes p.classNames fun name info =>
    ∃ c, .object c ∈ p ∧ c.name = name ∧ c.info = .ok info
  order : symbols.classOrder = p.classNames
  infos : ∀ c, .object c ∈ p → ∃ info, c.info = .ok info

variable {symbols : Symbols} {p : Program}

theorem Symbols.Holds.declare (h : symbols.Holds p) (hd : symbols.declare d = .ok symbols') :
    symbols'.Holds (p ++ [d]) := by
  cases d with
  | function f =>
    simp only [Symbols.declare, insertFunction] at hd
    split at hd
    · cases hd
    · cases hd
      have hnames : Program.functionNames (p ++ [.function f]) = p.functionNames ++ [f.name] := by
        simp [Program.functionNames]
      refine ⟨hnames ▸ h.functions.insert ‹_› fun name signature => ?_, ?_, ?_, ?_⟩
      · simp [or_and_right, exists_or, eq_comm]
      · simpa [Program.classNames] using h.classes
      · simp [h.order, Program.classNames]
      · simpa using h.infos
  | object c =>
    obtain ⟨info, hinfo, haccept⟩ := Except.bind_eq_ok.mp hd
    unfold insertClass at haccept
    rw [(ClassDef.info_eq_ok hinfo).1] at haccept
    split at haccept
    · cases haccept
    · cases haccept
      have hnames : Program.classNames (p ++ [.object c]) = p.classNames ++ [c.name] := by
        simp [Program.classNames]
      refine ⟨?_, hnames ▸ h.classes.insert ‹_› fun name info' => ?_, ?_, fun c' hc' => ?_⟩
      · simpa [Program.functionNames] using h.functions
      · have hcase : ∀ c', c' = c ∧ c'.name = name ∧ c'.info = .ok info' ↔
            c' = c ∧ name = c.name ∧ info' = info := by
          rintro c'
          refine and_congr_right ?_
          rintro rfl
          simp [hinfo, eq_comm]
        simp [or_and_right, exists_or, hcase]
      · simp [h.order, hnames]
      · rcases List.mem_append.mp hc' with hc' | hc'
        · exact h.infos c' hc'
        · obtain rfl : c' = c := by simpa using hc'
          exact ⟨info, hinfo⟩
  | globals vars =>
    cases hd
    refine ⟨?_, ?_, by simp [h.order, Program.classNames], by simpa using h.infos⟩
    · simpa [Program.functionNames] using h.functions
    · simpa [Program.classNames] using h.classes

/-- A definition repeats a name of its family, and is reported under the given text.  A class
is reported for its methods first. -/
inductive Definition.Repeats (earlier : Program) : Definition → String → Prop
  | function (f : FunctionDef) (hname : f.name ∈ earlier.functionNames) :
    Repeats earlier (.function f) f.name
  | method (c : ClassDef) (before : List FunctionDef) (m : FunctionDef) (after : List FunctionDef)
    (hmethods : c.methods = before ++ m :: after) (hfirst : (before.map FunctionDef.name).Nodup)
    (hname : m.name ∈ before.map FunctionDef.name) :
    Repeats earlier (.object c) (c.name ++ "." ++ m.name)
  | object (c : ClassDef) (hmethods : (c.methods.map FunctionDef.name).Nodup)
    (hname : c.name ∈ earlier.classNames) : Repeats earlier (.object c) c.name

theorem Symbols.Holds.repeats (h : symbols.Holds p) (hd : symbols.declare d = .error e) :
    ∃ text, d.Repeats p text ∧ e = .duplicateDefinition text := by
  cases d with
  | function f =>
    simp only [Symbols.declare, insertFunction] at hd
    split at hd
    · rename_i hmem
      rw [Std.ExtTreeMap.contains_iff_mem, h.functions.mem] at hmem
      exact ⟨f.name, .function f hmem, (Except.error.inj hd).symm⟩
    · cases hd
  | object c =>
    rcases c.methodTable_cases with ⟨table, htable, hlists⟩ | ⟨before, m, after, hc,
      hfirst, hm, herror⟩
    · simp only [Symbols.declare, ClassDef.info, htable, bind, Except.bind, pure, Except.pure] at hd
      unfold insertClass at hd
      split at hd
      · rename_i hmem
        rw [Std.ExtTreeMap.contains_iff_mem, h.classes.mem] at hmem
        exact ⟨c.name, .object c hlists.nodup hmem, (Except.error.inj hd).symm⟩
      · cases hd
    · simp only [Symbols.declare, ClassDef.info, herror, bind, Except.bind] at hd
      exact ⟨_, .method c before m after hc hfirst hm, (Except.error.inj hd).symm⟩
  | globals vars => cases hd

theorem Symbols.collect_cases (p : Program) :
    (∃ symbols, collect p = .ok symbols ∧ symbols.Holds p) ∨
      ∃ earlier d later symbols text, p = earlier ++ d :: later ∧ Holds symbols earlier ∧
        d.Repeats earlier text ∧ collect p = .error (.duplicateDefinition text) := by
  have hstart : Holds {} [] := ⟨.empty (by simp), .empty (by simp), rfl, by simp⟩
  rcases Except.foldlM_cases (I := fun p symbols => Holds symbols p) hstart
    (fun _ _ _ _ h hd => h.declare hd) p with hok | ⟨earlier, d, later, symbols, e, hp,
      h, hd, hfold⟩
  · exact .inl hok
  · obtain ⟨text, htext, rfl⟩ := h.repeats hd
    exact .inr ⟨earlier, d, later, symbols, text, hp, h, htext, hfold⟩

theorem Symbols.holds_of_collect (h : Symbols.collect p = .ok symbols) : symbols.Holds p := by
  rcases collect_cases p with ⟨symbols', h', hholds⟩ | ⟨_, _, _, _, _, -, -, -, herror⟩
  · rwa [Except.ok.inj (h.symm.trans h')]
  · cases h.symm.trans herror

/-! ## Collection -/

/-- The functions, the classes and the methods of each class have different names. -/
structure Program.Distinct (p : Program) : Prop where
  functions : p.functionNames.Nodup
  classes : p.classNames.Nodup
  methods : ∀ c, .object c ∈ p → (c.methods.map FunctionDef.name).Nodup

theorem Symbols.Holds.distinct (h : symbols.Holds p) : p.Distinct where
  functions := h.functions.nodup
  classes := h.classes.nodup
  methods := by
    intro c hc
    obtain ⟨info, hinfo⟩ := h.infos c hc
    exact (ClassDef.info_eq_ok hinfo).2.2.2.nodup

/-- The first definition of a program that repeats a name is reported under the given text. -/
def Program.FirstRepeat (p : Program) (text : String) : Prop :=
  ∃ earlier d later, p = earlier ++ d :: later ∧ Distinct earlier ∧ d.Repeats earlier text

theorem Program.FirstRepeat.not_distinct (h : p.FirstRepeat text) : ¬ p.Distinct := by
  obtain ⟨earlier, d, later, rfl, -, hd⟩ := h
  intro hdistinct
  cases hd with
  | function f hname =>
    have hnodup := hdistinct.functions
    simp only [functionNames, List.filterMap_append, List.filterMap_cons] at hnodup
    exact (List.nodup_append.mp hnodup).2.2 _ hname _ (.head _) rfl
  | method c before m after hmethods _ hname =>
    have hnodup := hdistinct.methods c (by simp)
    rw [hmethods, List.map_append] at hnodup
    exact (List.nodup_append.mp hnodup).2.2 _ hname _ (by simp) rfl
  | object c _ hname =>
    have hnodup := hdistinct.classes
    simp only [classNames, List.filterMap_append, List.filterMap_cons] at hnodup
    exact (List.nodup_append.mp hnodup).2.2 _ hname _ (.head _) rfl

/-- What is known about a class: each of its member variables in order, with the type of its
definition, and the signatures of its methods. -/
structure ClassInfo.Describes (info : ClassInfo) (c : ClassDef) : Prop where
  name : info.name = c.name
  members : info.members =
    c.members.flatMap fun vars => vars.declarators.map fun d => (d.name, vars.ty)
  methods : ∀ m ∈ c.methods, info.methods[m.name]? = some m.signature
  noMethod : ∀ name ∉ c.methods.map FunctionDef.name, info.methods[name]? = none
  hasConstructor : info.hasConstructor = c.constructor.isSome

/-- A table answers for every name with what the program declares under it, and lists the
classes in the order of their declaration. -/
structure Symbols.Answers (symbols : Symbols) (p : Program) : Prop where
  function : ∀ f, .function f ∈ p → symbols.function? f.name = some f.signature
  noFunction : ∀ name ∉ p.functionNames, symbols.function? name = none
  object : ∀ c, .object c ∈ p → ∃ info, symbols.class? c.name = some info ∧ info.Describes c
  noClass : ∀ name ∉ p.classNames, symbols.class? name = none
  classList : symbols.classList.map some = p.classNames.map symbols.class?

theorem Symbols.Holds.answers (h : symbols.Holds p) : symbols.Answers p where
  function := fun f hf => (h.functions.get? f.name f.signature).mpr ⟨f, hf, rfl, rfl⟩
  noFunction := fun _ hname => h.functions.get?_eq_none hname
  object := by
    intro c hc
    obtain ⟨info, hinfo⟩ := h.infos c hc
    obtain ⟨hname, hctor, hmems, hmethods⟩ := ClassDef.info_eq_ok hinfo
    refine ⟨info, (h.classes.get? c.name info).mpr ⟨c, hc, rfl, hinfo⟩, hname, hmems, ?_, ?_,
      hctor⟩
    · exact fun m hm => (hmethods.get? m.name m.signature).mpr ⟨m, hm, rfl, rfl⟩
    · exact fun name hname => hmethods.get?_eq_none hname
  noClass := fun _ hname => h.classes.get?_eq_none hname
  classList := by
    have hsome : ∀ name ∈ p.classNames, ∃ info, symbols.class? name = some info := by
      intro name hname
      exact Std.ExtTreeMap.isSome_getElem?_iff_mem.mpr ((h.classes.mem name).mpr hname) |>
        Option.isSome_iff_exists.mp
    rw [Symbols.classList, h.order]
    generalize p.classNames = names at hsome
    induction names with
    | nil => rfl
    | cons name rest ih =>
      obtain ⟨info, hinfo⟩ := hsome name (.head _)
      rw [List.filterMap_cons_some hinfo, List.map_cons, List.map_cons, hinfo,
        ih fun other hother => hsome other (.tail _ hother)]

/-- **A program is collected exactly if no name of a family is declared twice.**  The table
then answers for every name; otherwise the first repeated definition is reported. -/
theorem Symbols.collect_spec (p : Program) :
    ((∃ symbols, collect p = .ok symbols) ↔ p.Distinct) ∧
      (∀ symbols, collect p = .ok symbols → symbols.Answers p) ∧
      (¬ p.Distinct → ∃ text, p.FirstRepeat text ∧
        collect p = .error (.duplicateDefinition text)) := by
  rcases collect_cases p with
    ⟨symbols, hok, h⟩ | ⟨earlier, d, later, symbols, text, hp, h, hd, herror⟩
  · refine ⟨⟨fun _ => h.distinct, fun _ => ⟨symbols, hok⟩⟩, fun symbols' hok' => ?_, ?_⟩
    · rw [Except.ok.inj (hok'.symm.trans hok)]
      exact h.answers
    · exact fun hnot => absurd h.distinct hnot
  · have hfirst : p.FirstRepeat text := ⟨earlier, d, later, hp, h.distinct, hd⟩
    refine ⟨⟨?_, fun hp => absurd hp hfirst.not_distinct⟩, ?_, fun _ => ⟨text, hfirst, herror⟩⟩
    · rintro ⟨symbols, hok⟩
      cases hok.symm.trans herror
    · intro symbols hok
      cases hok.symm.trans herror

end MxStar.Source
