import MxStar.Proofs.Assembly.Labels

/-!
# String literals in the text of a unit

What the assembler reads between quotes is what was quoted, byte for byte.  `readQuoted` is
its reading: a backslash begins a short escape or up to three octal digits, and a quote, a
line end or anything else that is not printable ends the string or spoils it.  Every octal
escape is written with all its digits, so a digit after it is never taken for part of it.

`string_literals_survive` joins this to the way of a literal through its unit: its text is
interned, kept under its number, and written once under the label of that number, which is
how code and data refer to it.
-/

namespace MxStar.Assembly

/-! ## Reading a quoted string -/

/-- A character that a string may hold as it is, quotes and backslashes apart. -/
def IsPrintable (c : Char) : Prop :=
  0x20 ≤ c.toNat ∧ c.toNat ≤ 0x7e

instance (c : Char) : Decidable (IsPrintable c) :=
  inferInstanceAs (Decidable (_ ∧ _))

/-- What a character after a backslash stands for, digits apart. -/
def shortEscape? (c : Char) : Option UInt8 :=
  if c = '"' ∨ c = '\\' then some (.ofNat c.toNat)
  else if c = 'n' then some 0x0a
  else if c = 't' then some 0x09
  else if c = 'r' then some 0x0d
  else none

def octalValue? (c : Char) : Option Nat :=
  if '0'.toNat ≤ c.toNat ∧ c.toNat ≤ '7'.toNat then some (c.toNat - '0'.toNat) else none

def readOctal : Nat → Nat → List Char → Nat × List Char
  | count + 1, n, c :: rest =>
    match octalValue? c with
    | some digit => readOctal count (8 * n + digit) rest
    | none => (n, c :: rest)
  | _, n, rest => (n, rest)

theorem length_readOctal (count n : Nat) (text : List Char) :
    (readOctal count n text).2.length ≤ text.length := by
  fun_induction readOctal count n text with
  | case1 count n c rest digit _ ih => exact ih.trans (Nat.le_succ _)
  | _ => exact Nat.le_refl _

/-- Read the rest of a string and the quote that ends it. -/
def readText : List Char → Option (List UInt8)
  | [] => none
  | '"' :: rest => if rest = [] then some [] else none
  | '\\' :: [] => none
  | '\\' :: c :: rest =>
    match shortEscape? c, octalValue? c with
    | some byte, _ => (byte :: ·) <$> readText rest
    | none, some digit =>
      (.ofNat (readOctal 2 digit rest).1 :: ·) <$> readText (readOctal 2 digit rest).2
    | none, none => none
  | c :: rest => if IsPrintable c then (.ofNat c.toNat :: ·) <$> readText rest else none
termination_by text => text.length
decreasing_by
  · simp
  · have := length_readOctal 2 digit rest
    simp
    omega
  · simp

def readQuoted (text : String) : Option (List UInt8) :=
  match text.toList with
  | '"' :: rest => readText rest
  | _ => none

theorem octalDigit_cases (n : Nat) : shortEscape? (octalDigit n) = none ∧
    octalValue? (octalDigit n) = some (n % 8) ∧ IsPrintable (octalDigit n) := by
  have hall : ∀ k < 8, shortEscape? (Char.ofNat ('0'.toNat + k)) = none ∧
      octalValue? (Char.ofNat ('0'.toNat + k)) = some k ∧
        IsPrintable (Char.ofNat ('0'.toNat + k)) := by decide
  exact hall (n % 8) (Nat.mod_lt _ (by decide))

theorem readText_octal (n : Nat) (rest : List Char) :
    readText ('\\' :: octalDigit (n / 64) :: octalDigit (n / 8) :: octalDigit n :: rest) =
      (.ofNat n :: ·) <$> readText rest := by
  have hbyte : (.ofNat (8 * (8 * (n / 64 % 8) + n / 8 % 8) + n % 8) : UInt8) = .ofNat n := by
    rw [← UInt8.toNat_inj, UInt8.toNat_ofNat', UInt8.toNat_ofNat']
    omega
  have hvalue (n : Nat) := (octalDigit_cases n).2.1
  rw [readText, (octalDigit_cases _).1, hvalue]
  simp only [readOctal, hvalue, hbyte]

theorem quoteByte_cases (b : UInt8) :
    (∃ c, quoteByte b = ['\\', c] ∧ shortEscape? c = some b ∧ IsPrintable c) ∨
      (∃ c, quoteByte b = [c] ∧ c ≠ '"' ∧ c ≠ '\\' ∧ IsPrintable c ∧ .ofNat c.toNat = b) ∨
      quoteByte b = ['\\', octalDigit (b.toNat / 64), octalDigit (b.toNat / 8),
        octalDigit b.toNat] := by
  have hbyte : (.ofNat b.toNat : UInt8) = b := UInt8.ofNat_toNat
  unfold quoteByte
  simp only
  generalize b.toNat = n at hbyte
  subst hbyte
  split_ifs with h1 h2 h3 h4 h5 hprintable
  iterate 5
    subst_vars
    exact .inl ⟨_, rfl, rfl, by decide⟩
  · have hn : (Char.ofNat n).toNat = n := by
      rw [Char.toNat_ofNat, if_pos (.inl (by omega))]
    have hne {c : Char} (h : n ≠ c.toNat) : Char.ofNat n ≠ c := fun heq => h (heq ▸ hn.symm)
    refine .inr (.inl ⟨_, rfl, hne h1, hne h2, ?_, by rw [hn]⟩)
    rw [IsPrintable, hn]
    exact hprintable
  · exact .inr (.inr rfl)

theorem readText_quoteByte (b : UInt8) (rest : List Char) :
    readText (quoteByte b ++ rest) = (b :: ·) <$> readText rest := by
  rcases quoteByte_cases b with ⟨c, hb, hc, -⟩ | ⟨c, hb, hquote, hslash, hc, rfl⟩ | hb <;> rw [hb]
  · rw [List.cons_append, List.singleton_append, readText, hc]
  · rw [List.singleton_append, readText, if_pos hc]
    · exact hquote
    · exact fun h _ => hslash h
    · exact fun _ _ h _ => hslash h
  · exact (readText_octal b.toNat rest).trans (by rw [UInt8.ofNat_toNat])

theorem readText_quoteBytes (bytes : List UInt8) :
    readText (bytes.flatMap quoteByte ++ ['"']) = some bytes := by
  induction bytes with
  | nil => rw [List.flatMap_nil, List.nil_append, readText, if_pos rfl]
  | cons b bytes ih =>
    rw [List.flatMap_cons, List.append_assoc, readText_quoteByte, ih]
    rfl

theorem isPrintable_of_mem_quoteByte (h : c ∈ quoteByte b) : IsPrintable c := by
  have hslash : IsPrintable '\\' := by decide
  have hdigit (n : Nat) := (octalDigit_cases n).2.2
  rcases quoteByte_cases b with ⟨d, hb, -, hd⟩ | ⟨d, hb, -, -, hd, -⟩ | hb
  all_goals
    rw [hb] at h
    simp only [List.mem_cons, List.not_mem_nil, or_false] at h
  · rcases h with rfl | rfl <;> assumption
  · rwa [h]
  · rcases h with rfl | rfl | rfl | rfl
    exacts [hslash, hdigit _, hdigit _, hdigit _]

theorem readQuoted_quote (s : String) :
    readQuoted (quote s) = some s.toUTF8.toList ∧ ∀ c ∈ (quote s).toList, IsPrintable c := by
  have hquote : IsPrintable '"' := by decide
  simp only [readQuoted, quote, String.toList_ofList]
  refine ⟨readText_quoteBytes _, ?_⟩
  simp only [List.cons_append, List.mem_cons, List.mem_append, List.mem_flatMap, List.not_mem_nil,
    or_false]
  rintro c (rfl | ⟨b, -, hc⟩ | rfl)
  · exact hquote
  · exact isPrintable_of_mem_quoteByte hc
  · exact hquote

/-! ## Literals from the source to the text -/

open Machine (Module stringLabel references)

def literalId (earlier : List String) (text : String) : Flow.StringId :=
  ((StringPool.ofList earlier).intern text).1

/-- What becomes of texts in the pool of their unit.  A literal stands for its text after
those of the literals before it. -/
structure Pooled (texts : List String) (pool : StringPool) : Prop where
  /-- Each text is there once, numbered in the order of first interning -/
  entries : pool.toList = texts.eraseDups.zipIdx.map fun (text, n) => (⟨n⟩, text)
  kept : ∀ earlier text later, texts = earlier ++ text :: later →
    pool.get? (literalId earlier text) = some text
  same : ∀ earlier text later earlier' text' later', texts = earlier ++ text :: later →
    texts = earlier' ++ text' :: later' →
      (literalId earlier text = literalId earlier' text' ↔ text = text')

theorem pooled_ofList (texts : List String) : Pooled texts (.ofList texts) := by
  have hkept earlier text later (h : texts = earlier ++ text :: later) :
      (StringPool.ofList texts).indexOf? text = some (literalId earlier text) :=
    h ▸ StringPool.indexOf?_ofList earlier text later
  refine ⟨?_, fun earlier text later h => StringPool.get?_of_indexOf? (hkept _ _ _ h), ?_⟩
  · rw [StringPool.toList, Table.pairs, StringPool.entries_ofList]
  · intro earlier text later earlier' text' later' h h'
    constructor
    · intro hsame
      have hget := StringPool.get?_of_indexOf? (hkept _ _ _ h)
      rw [hsame, StringPool.get?_of_indexOf? (hkept _ _ _ h')] at hget
      exact (Option.some.inj hget).symm
    · rintro rfl
      exact Option.some.inj ((hkept _ _ _ h).symm.trans (hkept _ _ _ h'))

/-- The strings of a unit in its machine code: each has an entry under the label of its
number, and this is the label that is written wherever the graph names the string. -/
structure Labelled (program : Flow.Program) (m : Module) : Prop where
  entries : m.strings = program.strings.toList.map fun (id, text) => (stringLabel id, text)
  labels : (m.strings.map Prod.fst).Nodup
  /-- The blocks of the code refer to what the laid-out blocks refer to, in the same order, where
  the operand `.string id` refers to the address `stringLabel id` -/
  uses : List.Forall₂ (fun source f => List.Forall₂ (fun id block => ∃ b,
      source.blocks.get? id = some b ∧ references block.code = b.refersTo)
    source.layout f.blocks.entries.toList) program.allFunctions m.functions
  initial : List.Forall₂ (fun g item => item.label = g.name ∧
    ∀ id, g.initial = .string id ↔ item.value = .address (stringLabel id)) program.globals m.globals
  code : ∀ f ∈ m.functions, ∀ label, .address label ∈ references f.code →
    (∃ g ∈ program.globals, g.name = label) ∨
      ∃ id text, program.strings.get? id = some text ∧ label = stringLabel id
  data : ∀ item ∈ m.globals, ∀ label, item.value = .address label →
    ∃ id text, program.strings.get? id = some text ∧ label = stringLabel id

theorem initial_ofFlow (h : Machine.DataItem.ofFlow g = .ok item) (id : Flow.StringId) :
    g.initial = .string id ↔ item.value = .address (stringLabel id) := by
  unfold Machine.DataItem.ofFlow at h
  split at h
  · rename_i id' hid
    cases h
    rw [hid, Flow.Operand.string.injEq, Machine.DataValue.address.injEq, stringLabel_inj]
  · rename_i c hc
    split at h <;>
      · cases h
        simp [hc]
  · cases h

theorem labelled_of_ofFlow {after : Log} (hlinked : program.Linked p symbols)
    (hlayout : ∀ f ∈ program.allFunctions, f.layout.Nodup)
    (hm : Module.ofFlow program options before = .ok m after) : Labelled program m := by
  obtain ⟨hstrings, hglobals⟩ := Module.ofFlow_eq_ok hm
  refine ⟨hstrings, ?_, ?_, hglobals.imp fun g item hitem =>
    ⟨Machine.DataItem.label_ofFlow hitem, initial_ofFlow hitem⟩, fun f hf label hlabel => ?_,
    fun item hitem label => Module.string_of_address hm hlinked.initial hitem⟩
  · rw [hstrings, List.map_map]
    exact nodup_stringLabels program.strings
  · exact (List.forall₂_and_left _ _).mpr ⟨fun _ h => h, Module.forall₂_ofFlow hm⟩ |>.imp
      fun source f h => Machine.references_ofFlow (hlayout source h.1) h.2
  · obtain ⟨source, hsource, hflow⟩ := (Module.forall₂_ofFlow hm).exists_of_mem_right hf
    obtain ⟨id, b, hb, hnames⟩ := Machine.exists_mem_references_of_ofFlow hflow hlabel
    obtain ⟨hcode, hterm⟩ := hlinked.code source hsource id b hb
    rcases Machine.named_of_block hcode hterm hnames with ⟨o, ho, hr⟩ | ⟨_, h, -⟩
    · cases o with
      | global name =>
        obtain ⟨g, hg, rfl⟩ := ho
        exact .inl ⟨g, hg, by simpa [Flow.Operand.references, eq_comm] using hr⟩
      | string id =>
        obtain ⟨text, hid⟩ := ho
        exact .inr ⟨id, text, hid, by simpa [Flow.Operand.references] using hr⟩
      | _ => simp [Flow.Operand.references] at hr
    · cases h

/-- What lowering does to a pool of earlier texts: a literal gets the number of its text, and
statements add their texts in order. -/
structure Interned (earlier : List String) : Prop where
  placed : ∀ text, Flow.placeLiteral (.ofList earlier) (.text text) =
    (.string (literalId earlier text), .ofList (earlier ++ [text]))
  lowered : ∀ text (s : Flow.Builder), s.strings = .ofList earlier →
    Flow.lowerLiteral (.text text) s = .ok (.string (literalId earlier text))
      { s with strings := .ofList (earlier ++ [text]) }
  statements : ∀ (ctx : Flow.Context) body s u s', s.strings = .ofList earlier →
    ctx.lowerStmts body s = .ok u s' → s'.strings = .ofList (earlier ++ Source.textsIn body)
  expressions : ∀ (ctx : Flow.Context) e s lowered s', s.strings = .ofList earlier →
    ctx.lowerExpr e s = .ok lowered s' → s'.strings = .ofList (earlier ++ e.texts)

theorem interned_ofList (earlier : List String) : Interned earlier := by
  have hpool (text : String) :
      ((StringPool.ofList earlier).intern text).2 = .ofList (earlier ++ [text]) := by
    rw [StringPool.ofList_append]
    rfl
  refine ⟨fun text => by rw [← hpool]; rfl, fun text s hs => ?_, fun ctx body s u s' hs h => ?_,
    fun ctx e s lowered s' hs h => ?_⟩
  · rw [← hpool, literalId, ← hs]
    rfl
  · rw [(Flow.builds_lowerStmts ctx body).interns h, hs, StringPool.ofList_append]
  · rw [(Flow.builds_lowerExpr ctx e).interns h, hs, StringPool.ofList_append]

/-- **String literals survive to the data section.**  A literal is lowered to the number that
its text gets, a number keeps its string however many are interned after it, the pool of a
unit holds the texts of its source, its machine code has each of them once and refers to it by
its label wherever the graph names it, and what is written for it is read back as its bytes. -/
theorem string_literals_survive :
    (∀ earlier, Interned earlier) ∧
      (∀ (pool : StringPool) id text later, pool.get? id = some text →
        (pool.internAll later).get? id = some text) ∧
      (∀ p symbols log program log', Source.Symbols.collect p = .ok symbols →
        Flow.Program.ofSource p symbols log = .ok program log' →
          Pooled (Flow.unitTexts p) program.strings ∧ ∀ options before, ∃ m after,
            Module.ofFlow program options before = .ok m after ∧ Labelled program m) ∧
      ∀ s : String, readQuoted (quote s) = some s.toUTF8.toList ∧
        ∀ c ∈ (quote s).toList, IsPrintable c := by
  refine ⟨interned_ofList, fun pool id text later h => StringPool.get?_internAll_of_get? h later,
    fun p symbols log program log' hsymbols h => ?_, readQuoted_quote⟩
  obtain ⟨unit, hunit⟩ := Flow.Program.ofSource_eq_ok h
  refine ⟨Flow.strings_of_lowerUnit hunit ▸ pooled_ofList _, fun options before => ?_⟩
  obtain ⟨m, after, hm⟩ := Module.exists_ofFlow_of_ofSource h options before
  have hlayout : ∀ f ∈ program.allFunctions, f.layout.Nodup := fun f hf => by
    obtain ⟨A, hsound⟩ := Flow.Program.sound_of_ofSource h f hf
    exact hsound.wellFormed.nodup
  exact ⟨m, after, hm, labelled_of_ofFlow (Flow.Program.linked_of_lowerUnit
    (Source.Symbols.holds_of_collect hsymbols) hunit) hlayout hm⟩

/-- A global text, one that has to be escaped, and the first one again. -/
def echo : Source.Program :=
  let string : Source.Ty := { base := .string }
  let say (text : String) : Source.Stmt :=
    .evaluate (.call { base := .void } "print" [.literal string (.text text)])
  [ .globals ⟨string, [⟨"s", some (.literal string (.text "x"))⟩]⟩,
    .function {
      name := "main", returnType := { base := .void }, parameters := []
      body := [say "\"\n", say "x"] } ]

/-- Two strings are kept for three literals, and both are read back. -/
theorem string_literals_survive_echo : ∃ symbols program log m after,
    Source.Symbols.collect echo = .ok symbols ∧
      Flow.Program.ofSource echo symbols #[] = .ok program log ∧
      Module.ofFlow program {} #[] = .ok m after ∧ Pooled (Flow.unitTexts echo) program.strings ∧
      Labelled program m ∧ m.strings = [(".str.0", "x"), (".str.1", "\"\n")] ∧
      (∀ later, (program.strings.internAll later).get? (literalId ["x", "\"\n"] "x") = some "x") ∧
      readQuoted (quote "\"\n") = some [0x22, 0x0a] := by
  obtain ⟨symbols, program, log, hsymbols, hlowered, -⟩ :=
    Flow.Program.exists_ofSource echo (fun _ _ => true) (by cbv)
  obtain ⟨-, hkept, hunit, hread⟩ := string_literals_survive
  obtain ⟨hpooled, hmodule⟩ := hunit echo symbols #[] program log hsymbols hlowered
  obtain ⟨m, after, hm, hlabelled⟩ := hmodule {} #[]
  have htexts : Flow.unitTexts echo = ["x", "\"\n", "x"] := by cbv
  refine ⟨symbols, program, log, m, after, hsymbols, hlowered, hm, hpooled, hlabelled, ?_,
    fun later => hkept _ _ _ later (hpooled.kept _ _ [] htexts),
    (hread "\"\n").1.trans (by decide +kernel)⟩
  rw [hlabelled.entries, hpooled.entries, htexts]
  decide +kernel

end MxStar.Assembly
