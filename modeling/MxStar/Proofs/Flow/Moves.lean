import MxStar.Flow.Unit
import MxStar.Proofs.Flow.Building

/-!
# What the steps of a body write

A step that builds a part of a body adds blocks, registers and cells, names strings,
and writes code.  A `Move` is one such change together with what its code may mention:
the globals, the layouts and the symbols of its `Vocabulary`, and the strings named
so far.  Code is written in phrases, so that an object and the call that constructs it
come together.
-/

namespace MxStar.StringPool

theorem size_le_size_intern (p : StringPool) (value : String) :
    p.size ≤ (p.intern value).2.size := by
  unfold intern
  split
  · exact Nat.le_refl _
  · simp [size]

theorem lt_size_intern (p : StringPool) (value : String) :
    (p.intern value).1.val < (p.intern value).2.size :=
  Table.lt_size_of_get? (p.get?_intern value)

end MxStar.StringPool

variable {name symbol : String}

namespace MxStar.Linkage

def support : List String :=
  [allocate, stringLength, stringCopy, stringAppend,
    "__mx_string_length", "__mx_string_substring", "__mx_string_parseInt", "__mx_string_ord",
    "__mx_string_eq", "__mx_string_ne", "__mx_string_lt", "__mx_string_le", "__mx_string_gt",
    "__mx_string_ge"] ++ builtins

theorem mem_support_of_builtin? (h : builtin? name = some symbol) : symbol ∈ support := by
  unfold builtin? at h
  split at h
  · cases h
    exact List.mem_append_right _ ‹_›
  · simp at h

theorem mem_support_of_stringMethod? (h : stringMethod? name = some symbol) : symbol ∈ support := by
  unfold stringMethod? at h
  split at h
  · rename_i hmem
    cases h
    fin_cases hmem <;> decide
  · simp at h

theorem mem_support_of_stringComparison? (h : stringComparison? op = some symbol) :
    symbol ∈ support := by
  cases op <;> simp only [stringComparison?, Option.some.injEq, reduceCtorEq] at h <;>
    subst h <;> decide

end MxStar.Linkage

namespace MxStar.Flow

open Build

/-! ## What code may mention -/

/-- What the code of a unit may mention. -/
structure Vocabulary where
  structs : List Struct
  globals : List Global
  /-- The symbols a call may name, other than the constructors of new objects -/
  calls : String → Prop

/-- The layout of a class. -/
def Vocabulary.struct? (V : Vocabulary) (name : String) : Option Struct :=
  V.structs.find? fun s => s.name == name

/-- An operand names a global that exists, or one of the first `strings` strings. -/
def Operand.Known (V : Vocabulary) (strings : Nat) : Operand → Prop
  | .global name => ∃ g ∈ V.globals, g.name = name
  | .string id => id.val < strings
  | .register _ | .constant _ => True

variable {V : Vocabulary} {s s' : Builder} {a : Unit}

variable {o : Operand} {struct : Struct}

theorem Operand.Known.mono (h : o.Known V n) (hle : n ≤ m) : o.Known V m := by
  cases o with
  | string id => exact Nat.lt_of_lt_of_le h hle
  | _ => exact h

/-- Instructions whose operands are all they mention. -/
def Instr.IsPlain : Instr → Prop
  | .bitCast _ _ | .memberAddress _ _ _ _ | .call _ _ _ => False
  | _ => True

/-- The code that makes an object in fresh memory and constructs it, if its class
declares a constructor. -/
def Struct.creation (struct : Struct) (memory object : RegisterId) : List Instr :=
  [.call (some memory) Linkage.allocate [int (max struct.size 1)],
    .bitCast object (.register memory)] ++
  if struct.hasConstructor then
    [.call none (Linkage.methodSymbol struct.name struct.name) [.register object]]
  else
    []

/-- Code that is written at once, where `strings` strings are known. -/
inductive Phrase (V : Vocabulary) (strings : Nat) (registers : Table .register RegisterInfo) :
    List Instr → Prop
  | plain (i : Instr) (hplain : i.IsPlain) (hknown : ∀ o ∈ i.operands, o.Known V strings) :
    Phrase V strings registers [i]
  /-- Memory is taken for an object in a creation only -/
  | cast (d : RegisterId) (value : Operand) (info : RegisterInfo)
    (hinfo : registers.get? d = some info) (hty : ∀ name, info.ty ≠ .object name)
    (hknown : value.Known V strings) : Phrase V strings registers [.bitCast d value]
  | member (d : RegisterId) (base : Operand) (struct : Struct) (field : Nat)
    (hstruct : V.struct? struct.name = some struct) (hfield : field < struct.members.length)
    (hknown : base.Known V strings) :
    Phrase V strings registers [.memberAddress d base struct.name field]
  | call (d : Option RegisterId) (symbol : String) (arguments : List Operand)
    (hcalls : V.calls symbol) (hknown : ∀ o ∈ arguments, o.Known V strings) :
    Phrase V strings registers [.call d symbol arguments]
  | creation (struct : Struct) (memory object : RegisterId)
    (hstruct : V.struct? struct.name = some struct)
    (hobject : registers.get? object = some { ty := .object struct.name }) :
    Phrase V strings registers (struct.creation memory object)

theorem Phrase.mono {code : List Instr} (h : Phrase V n registers code) (hle : n ≤ m) :
    Phrase V m registers code := by
  cases h with
  | plain i hplain hknown => exact .plain i hplain fun o ho => (hknown o ho).mono hle
  | cast d value info hinfo hty hknown => exact .cast d value info hinfo hty (hknown.mono hle)
  | member d base struct field hstruct hfield hknown =>
    exact .member d base struct field hstruct hfield (hknown.mono hle)
  | call d symbol arguments hcalls hknown =>
    exact .call d symbol arguments hcalls fun o ho => (hknown o ho).mono hle
  | creation struct memory object hstruct hobject =>
    exact .creation struct memory object hstruct hobject

/-! ## Moves -/

/-- What the labels of blocks begin with. -/
def blockTags : List String :=
  ["entry", "exit", "and_end", "and_rhs", "and_short", "or_end", "or_rhs", "or_short",
    "cond_end", "cond_true", "cond_false", "new_end", "new_cond", "new_body",
    "if_end", "if_then", "if_else", "while_end", "while_cond", "while_body",
    "for_end", "for_cond", "for_step", "for_body"]

/-- The block with code written to it.  A finished block drops the code. -/
def Block.write (b : Block) (code : List Instr) : Block :=
  if b.finished then b else { b with instrs := b.instrs ++ code }

/-- The block ended by a terminator.  A finished block keeps its own. -/
def Block.close (b : Block) (t : Terminator) : Block :=
  if b.finished then b else { b with terminator := some t, finished := true }

theorem Block.write_write (b : Block) (code code' : List Instr) :
    (b.write code).write code' = b.write (code ++ code') := by
  cases hfin : b.finished with
  | true => simp [Block.write, hfin]
  | false => simp [Block.write, hfin, ← Array.toList_inj]

def Builder.change (s : Builder) (edit : Block → Block) : Builder :=
  { s with function := { s.function with blocks := s.function.blocks.modify s.current edit } }

/-- One change that building a body makes. -/
inductive Move (V : Vocabulary) : Builder → Builder → Prop
  | note (s : Builder) (log : Log) : Move V s { s with log }
  | scopes (s : Builder) (scopes : ScopeStack) : Move V s { s with scopes }
  | intern (s : Builder) (value : String) :
    Move V s { s with strings := (s.strings.intern value).2 }
  /-- A block is new and ends in a jump, as an older block does, or not at all -/
  | block (s : Builder) (tag : String) (terminator : Option Terminator) (htag : tag ∈ blockTags)
    (hterm : ∀ t ∈ terminator, t.operands = [] ∨
      ∃ id b, s.function.blocks.get? id = some b ∧ b.terminator = some t) :
    Move V s { s with
      nextLabel := s.nextLabel + 1
      function := { s.function with
        blocks := s.function.blocks.push { label := s!"{tag}{s.nextLabel}", terminator } } }
  | register (s : Builder) (info : RegisterInfo) :
    Move V s { s with function := { s.function with
      registers := s.function.registers.push info } }
  | cell (s : Builder) (c : Cell) :
    Move V s { s with function := { s.function with cells := s.function.cells.push c } }
  | parameter (s : Builder) (r : RegisterId) :
    Move V s { s with function := { s.function with
      parameters := s.function.parameters ++ [r] } }
  | enter (s : Builder) (b : BlockId) :
    Move V s { s with function := { s.function with layout := s.function.layout ++ [b] }
                      current := b }
  | code (s : Builder) (phrase : List Instr)
    (hphrase : Phrase V s.strings.size s.function.registers phrase) :
    Move V s (s.change (·.write phrase))
  | finish (s : Builder) (t : Terminator)
    (hknown : ∀ o ∈ t.operands, o.Known V s.strings.size) :
    Move V s (s.change (·.close t))

abbrev Moves (V : Vocabulary) : Builder → Builder → Prop :=
  Relation.ReflTransGen (Move V)

theorem Move.size_le (h : Move V s s') : s.strings.size ≤ s'.strings.size := by
  cases h with
  | intern value => exact StringPool.size_le_size_intern _ _
  | _ => exact Nat.le_refl _

theorem Moves.size_le (h : Moves V s s') : s.strings.size ≤ s'.strings.size := by
  induction h with
  | refl => exact Nat.le_refl _
  | tail _ hmove ih => exact ih.trans hmove.size_le

/-! ## The moves of single steps -/

theorem editCurrent_eq_ok {change : Block → Option Block} {dropped : String → Event}
    (h : editCurrent (fun f b => f.changeBlock b change dropped) s = .ok a s') :
    ∃ log, s' = { s.change fun b => (change b).getD b with log } := by
  obtain ⟨b, log, hb, rfl⟩ := changeCurrent_eq_ok h
  have hedit : ∀ b', (change b).getD b = b' → s.function.blocks.modify s.current (fun _ => b') =
      s.function.blocks.modify s.current fun b => (change b).getD b := by
    rintro b' rfl
    refine Table.modify_congr fun found hfound => ?_
    obtain rfl := Option.mem_unique hb hfound
    rfl
  refine ⟨log, ?_⟩
  cases hc : change b with
  | some changed => simp only [Builder.change, ← hedit changed (by rw [hc]; rfl)]
  | none =>
    have hsame : s.function.blocks.modify s.current (fun _ => b) = s.function.blocks := by
      refine (Table.modify_congr fun found hfound => ?_).trans (Table.modify_id _ _)
      exact Option.mem_unique hb hfound
    simp only [Builder.change, ← hedit b (by rw [hc]; rfl), hsame]

theorem emit_cases (h : emit i s = .ok a s') : ∃ log, s' = { s.change (·.write [i]) with log } := by
  have hwrite : (fun b : Block => (b.push? i).getD b) = (·.write [i]) := by
    funext b
    cases hfin : b.finished <;> simp [Block.push?, Block.write, hfin]
  obtain ⟨log, hs'⟩ := editCurrent_eq_ok h
  exact ⟨log, hwrite ▸ hs'⟩

theorem terminate_cases (h : terminate t s = .ok a s') :
    ∃ log, s' = { s.change (·.close t) with log } := by
  have hclose : (fun b : Block => (b.terminate? t).getD b) = (·.close t) := by
    funext b
    cases hfin : b.finished <;> simp [Block.terminate?, Block.close, hfin]
  obtain ⟨log, hs'⟩ := editCurrent_eq_ok h
  exact ⟨log, hclose ▸ hs'⟩

theorem define_cases {instr : RegisterId → Instr} (h : define ty instr s = .ok o s') :
    o = .register s.function.registers.next ∧ ∃ log, s' = { { s with function := { s.function with
            registers := s.function.registers.push { ty } } }.change
          (·.write [instr s.function.registers.next]) with log } := by
  obtain ⟨d, s1, hreg, u, hemit, rfl⟩ := EStateM.bind2_pure_eq_ok.mp h
  obtain ⟨rfl, rfl⟩ := createRegister_eq_ok hreg
  exact ⟨rfl, emit_cases hemit⟩

section

variable {ctx : Context}

theorem newObject_cases {s s' : Builder} (hstruct : ctx.struct struct.name = .ok struct)
    (h : ctx.newObject struct.name s = .ok o s') :
    let registers := s.function.registers.push { ty := .string }
    o = .register registers.next ∧ ∃ log, s' = { { s with function := { s.function with
            registers := registers.push { ty := .object struct.name } } }.change
          (·.write (struct.creation s.function.registers.next registers.next)) with log } := by
  obtain ⟨found, heq, hrest⟩ := EStateM.ofExcept_bind_eq_ok.mp h
  obtain rfl := Except.ok.inj (hstruct.symm.trans heq)
  obtain ⟨memory, s1, hcall, object, s2, hcast, hrest⟩ := EStateM.bind2_eq_ok.mp hrest
  obtain ⟨rfl, log1, rfl⟩ := define_cases hcall
  obtain ⟨rfl, log2, rfl⟩ := define_cases hcast
  split at hrest
  · rename_i hctor
    obtain ⟨_, hconstruct, rfl⟩ := EStateM.bind_pure_eq_ok.mp hrest
    obtain ⟨log3, rfl⟩ := emit_cases hconstruct
    refine ⟨rfl, log3, ?_⟩
    simp [Builder.change, Table.modify_modify, Block.write_write, Struct.creation, hctor]
  · rename_i hctor
    obtain ⟨rfl, rfl⟩ := EStateM.pure_eq_ok.mp hrest
    refine ⟨rfl, log2, ?_⟩
    simp [Builder.change, Table.modify_modify, Block.write_write, Struct.creation, hctor]

end

/-! ## What a context has -/

structure Vocabulary.Covers (V : Vocabulary) (ctx : Context) : Prop where
  structs : ctx.structs = V.structs
  globals : ctx.globals = V.globals
  function : ∀ name, (ctx.symbols.function? name).isSome → V.calls name
  method : ∀ className method, ctx.symbols.hasMethod className method = true →
    V.calls (Linkage.methodSymbol className method)
  support : ∀ symbol ∈ Linkage.support, V.calls symbol

section

variable {V : Vocabulary} {ctx : Context}

theorem Context.struct_eq_ok (h : ctx.struct name = .ok struct) :
    ctx.structs.find? (fun s => s.name == name) = some struct := by
  unfold Context.struct at h
  split at h
  · cases h
    assumption
  · cases h

variable (hctx : V.Covers ctx)
include hctx

theorem Vocabulary.Covers.struct? (h : ctx.struct name = .ok struct) :
    struct.name = name ∧ V.struct? struct.name = some struct := by
  have hfound := Context.struct_eq_ok h
  obtain rfl : struct.name = name := by simpa using List.find?_some hfound
  rw [hctx.structs] at hfound
  exact ⟨rfl, hfound⟩

theorem Vocabulary.Covers.functionSymbol (h : ctx.functionSymbol name = .ok symbol) :
    V.calls symbol := by
  unfold Context.functionSymbol at h
  split at h
  · cases h
    exact hctx.function name ‹_›
  · split at h
    · cases h
      exact hctx.support _ (Linkage.mem_support_of_builtin? ‹_›)
    · cases h

theorem Vocabulary.Covers.methodCallee {method : String}
    (h : ctx.methodCallee ty method = .ok (.function symbol)) : V.calls symbol := by
  unfold Context.methodCallee at h
  split at h
  · split at h <;> simp at h
  · split at h
    · split at h
      · obtain rfl := Callee.function.inj (Except.ok.inj h)
        exact hctx.support _ (Linkage.mem_support_of_stringMethod? ‹_›)
      · cases h
    · split at h
      · split at h
        · obtain rfl := Callee.function.inj (Except.ok.inj h)
          exact hctx.method _ _ ‹_›
        · cases h
      · cases h

end

end MxStar.Flow
