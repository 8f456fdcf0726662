import MxStar.Proofs.Flow.Linked
import MxStar.Proofs.Machine.SelectionInstr

/-!
# Members stay inside their objects

The members of a class stand in the order of their declaration, at multiples of their
alignments and without an overlap (`Struct.LaysOut`).  Memory that a unit takes for an object
has the size of that layout (`Written.creation_of_part`), and selection finds a member where
the same layout puts it, so no access to a member leaves the memory of its object.
-/

namespace MxStar.Flow

/-! ## Layouts -/

namespace Struct

def extent (s : Struct) : Nat :=
  (s.members.getLast?.map fun m => m.offset + m.ty.size).getD 0

/-- The members of a declaration have places of their own, and an object is no larger than
whole words have to be. -/
structure LaysOut (s : Struct) (declared : List (String × Ty)) : Prop where
  order : s.members.map (fun m => (m.name, m.ty)) = declared
  aligned : ∀ m ∈ s.members, m.ty.alignment ∣ m.offset
  increasing : s.members.Pairwise fun m m' => m.offset + m.ty.size ≤ m'.offset
  within : ∀ m ∈ s.members, m.offset + m.ty.size ≤ s.size
  size : IsLeast {n | wordSize ∣ n ∧ s.extent ≤ n} s.size
  /-- A name stands for the first member that has it -/
  member : ∀ name i m, s.member? name = some (i, m) ↔ s.members[i]? = some m ∧ m.name = name ∧
    ∀ j < i, ∀ m', s.members[j]? = some m' → m'.name ≠ name

theorem map_place (offset : Nat) (declared : List (String × Ty)) :
    (place offset declared).1.map (fun m => (m.name, m.ty)) = declared := by
  induction declared generalizing offset with
  | nil => rfl
  | cons m rest ih => simp [place, ih]

section

variable (h : m ∈ (place offset declared).1)
include h

theorem le_of_mem_place : offset ≤ m.offset ∧ m.offset + m.ty.size ≤ (place offset declared).2 := by
  induction declared generalizing offset with
  | nil => simp [place] at h
  | cons first rest ih =>
    have hstart := le_alignTo offset first.2.alignment
    simp only [place, List.mem_cons] at h ⊢
    rcases h with rfl | h
    · exact ⟨hstart, le_place _ rest⟩
    · exact ⟨by have := (ih h).1; omega, (ih h).2⟩

theorem dvd_of_mem_place : m.ty.alignment ∣ m.offset := by
  induction declared generalizing offset with
  | nil => simp [place] at h
  | cons first rest ih =>
    simp only [place, List.mem_cons] at h
    rcases h with rfl | h
    · exact dvd_alignTo offset _ (Nat.lt_of_lt_of_le Nat.one_pos (Nat.le_max_right _ _))
    · exact ih h

end

theorem pairwise_place (offset : Nat) (declared : List (String × Ty)) :
    (place offset declared).1.Pairwise fun m m' => m.offset + m.ty.size ≤ m'.offset := by
  induction declared generalizing offset with
  | nil => exact .nil
  | cons first rest ih => exact .cons (fun m hm => (le_of_mem_place hm).1) (ih _)

theorem end_place (offset : Nat) (declared : List (String × Ty)) : (place offset declared).2 =
      ((place offset declared).1.getLast?.map fun m => m.offset + m.ty.size).getD offset := by
  induction declared generalizing offset with
  | nil => rfl
  | cons first rest ih =>
    refine (ih _).trans ?_
    cases rest with
    | nil => rfl
    | cons second rest =>
      simp only [place, List.getLast?_cons_cons]
      rw [List.getLast?_eq_getLast_of_ne_nil (List.cons_ne_nil _ _)]
      rfl

theorem member?_eq_some {s : Struct} {name : String} {i : Nat} {m : Member} :
    s.member? name = some (i, m) ↔ s.members[i]? = some m ∧ m.name = name ∧
      ∀ j < i, ∀ m', s.members[j]? = some m' → m'.name ≠ name := by
  have hfind : s.member? name = some (i, m) ↔
      (s.members.zipIdx.find? fun x => x.1.name == name) = some (m, i) := by
    unfold member?
    constructor
    · intro h
      obtain ⟨⟨m', i'⟩, hx, heq⟩ := Option.map_eq_some_iff.mp h
      cases heq
      exact hx
    · intro h
      exact Option.map_eq_some_iff.mpr ⟨_, h, rfl⟩
  rw [hfind, List.find?_eq_some_iff_getElem]
  simp only [beq_iff_eq, List.getElem_zipIdx, Nat.zero_add, Prod.mk.injEq, List.length_zipIdx,
    Bool.not_eq_true', beq_eq_false_iff_ne]
  constructor
  · rintro ⟨hname, k, hk, ⟨rfl, rfl⟩, hbefore⟩
    refine ⟨List.getElem?_eq_getElem hk, hname, fun j hj m' hm' => ?_⟩
    obtain ⟨_, rfl⟩ := List.getElem?_eq_some_iff.mp hm'
    exact hbefore j hj
  · rintro ⟨hm, hname, hbefore⟩
    obtain ⟨hi, rfl⟩ := List.getElem?_eq_some_iff.mp hm
    exact ⟨hname, i, hi, ⟨rfl, rfl⟩, fun j hj =>
      hbefore j hj _ (List.getElem?_eq_getElem (hj.trans hi))⟩

theorem laysOut_layOut (name : String) (declared : List (String × Ty)) (hasConstructor : Bool) :
    (layOut name declared hasConstructor).LaysOut declared where
  order := map_place 0 declared
  aligned := fun _ h => dvd_of_mem_place h
  increasing := pairwise_place 0 declared
  within := fun _ h => (le_of_mem_place h).2.trans (le_alignTo _ wordSize)
  size := by
    have hextent : (layOut name declared hasConstructor).extent = (place 0 declared).2 :=
      (end_place 0 declared).symm
    refine ⟨⟨dvd_alignTo _ wordSize (by decide), ?_⟩, fun n hn => ?_⟩
    · rw [hextent]
      exact le_alignTo _ wordSize
    · exact alignTo_le (hextent ▸ hn.2) hn.1
  member := fun _ _ _ => member?_eq_some

end Struct

/-! ## Memory for objects -/

def requestOf (memory object : RegisterId) (bytes : Operand) : List Instr :=
  [.call (some memory) Linkage.allocate [bytes], .bitCast object (.register memory)]

def Function.Requests (f : Function) (className : String) (bytes : Operand) : Prop :=
  ∃ id b memory object, f.blocks.get? id = some b ∧
    requestOf memory object bytes <:+: b.instrs.toList ∧
    f.registers.get? object = some { ty := .object className }

section

variable {V : Vocabulary} {n : Nat} {registers : Table .register RegisterInfo} {code : List Instr}
  {object : RegisterId} {className : String}

section

variable (h : Phrase V n registers code)
  (hobject : registers.get? object = some { ty := .object className })
include h hobject

theorem Phrase.not_begins_bitCast : ¬[Instr.bitCast object value] <+: code := by
  rintro ⟨rest, rfl⟩
  generalize hcode : [Instr.bitCast object value] ++ rest = code at h
  cases h with
  | plain i hplain hknown =>
    obtain ⟨rfl, -⟩ := List.cons.inj hcode
    exact hplain
  | cast d value' info hinfo hty hknown =>
    obtain ⟨heq, -⟩ := List.cons.inj hcode
    obtain ⟨rfl, -⟩ := Instr.bitCast.inj heq
    exact hty className (by rw [Option.mem_unique hinfo hobject])
  | _ => cases (List.cons.inj hcode).1

theorem Phrase.creation_of_part (hpart : requestOf memory object bytes <:+: code) :
    ∃ struct, V.struct? className = some struct ∧ bytes = Build.int (max struct.size 1) := by
  have hshort : ∀ i : Instr, ¬requestOf memory object bytes <:+: [i] := fun i hi => by
    have := hi.length_le
    simp [requestOf] at this
  cases h with
  | creation struct memory' object' hstruct hobject' =>
    have hpair : Instr.call (some memory) Linkage.allocate [bytes] =
          .call (some memory') Linkage.allocate [Build.int (max struct.size 1)] ∧
        object = object' := by
      unfold Struct.creation requestOf at hpart
      split at hpart <;> simp [List.infix_cons_iff, List.prefix_cons_iff] at hpart ⊢ <;> tauto
    obtain ⟨hcall, rfl⟩ := hpair
    obtain ⟨-, -, hbytes⟩ := Instr.call.inj hcall
    obtain ⟨hname⟩ := RegisterInfo.mk.inj (Option.mem_unique hobject hobject')
    obtain rfl := Ty.object.inj hname
    exact ⟨struct, hstruct, (List.cons.inj hbytes).1⟩
  | _ => exact absurd hpart (hshort _)

end

theorem Written.creation_of_part (h : Written V n registers code)
    (hobject : registers.get? object = some { ty := .object className })
    (hpart : requestOf memory object bytes <:+: code) :
    ∃ struct, V.struct? className = some struct ∧ bytes = Build.int (max struct.size 1) := by
  induction h with
  | nil => simp [requestOf] at hpart
  | append hcode hphrase ih =>
    rcases List.infix_append_iff.mp hpart with hpart | hpart | ⟨l, r, heq, hl, hr⟩
    · exact ih hpart
    · exact hphrase.creation_of_part hobject hpart
    · -- a request does not straddle two phrases: its second half begins none
      rcases l with - | ⟨i, - | ⟨i', l⟩⟩
      · rw [List.nil_append] at heq
        exact hphrase.creation_of_part hobject (heq ▸ hr.isInfix)
      · obtain ⟨-, rfl⟩ := List.cons.inj heq
        exact absurd hr (hphrase.not_begins_bitCast hobject)
      · obtain ⟨-, hr⟩ : l = [] ∧ r = [] := by
          simpa [requestOf] using congrArg (List.drop 2) heq.symm
        rw [hr, List.append_nil] at heq
        exact ih (heq ▸ hl.isInfix)

theorem Written.exists_phrase (h : Written V n registers code) (hi : i ∈ code) :
    ∃ phrase, Phrase V n registers phrase ∧ i ∈ phrase := by
  induction h with
  | nil => simp at hi
  | append _ hphrase ih =>
    rcases List.mem_append.mp hi with hi | hi
    · exact ih hi
    · exact ⟨_, hphrase, hi⟩

theorem Phrase.member_of_mem (h : Phrase V n registers code)
    (hi : .memberAddress d base className field ∈ code) :
    ∃ struct, V.struct? className = some struct ∧ field < struct.members.length := by
  cases h with
  | plain i hplain hknown =>
    obtain rfl := List.mem_singleton.mp hi
    cases hplain
  | member d base struct field hstruct hfield hknown =>
    obtain ⟨-, -, rfl, rfl⟩ := Instr.memberAddress.inj (List.mem_singleton.mp hi)
    exact ⟨struct, hstruct, hfield⟩
  | creation struct memory object hstruct hobject =>
    unfold Struct.creation at hi
    split at hi <;> simp at hi
  | _ => cases List.mem_singleton.mp hi

end

end MxStar.Flow

namespace MxStar.Machine

open MxStar.Flow (Struct Context Builder requestOf)

/-- The code of the address of a member leaves the address of the object plus the offset of the
member in the register that stands for `d`, wherever the object is. -/
def AddsOffset (sel : Selector) (d : Flow.RegisterId) (base : Flow.Operand) (offset : Nat)
    (code : List Instr) (n' : Naming) : Prop :=
  ∀ (World : Type) (E : Environment World) (sp : Word) (N : Naming), n'.Grows N →
    ∀ fs s a, Carries sel E N fs s → fs.value? (E.flow sp) base = some a →
      ∃ v s', N.values[d]? = some v ∧ Runs (sel.backing E) code s s' ∧
        s'.get (.virtual v) = a + BitVec.ofNat 32 offset

theorem addsOffset_selectMember {member : Flow.Member}
    (hlayout : sel.program.struct? className = some layout)
    (hmember : layout.members[field]? = some member) (hn : n.Sound)
    (h : sel.selectMember d base className field n = .ok (code, n')) :
    AddsOffset sel d base member.offset code n' := by
  intro World E sp N hN fs s a C ha
  obtain ⟨layout', member', rs, prepare, rd, add, n1, n2, hlayout', hmember', hbase, hrd,
    hadd, rfl⟩ :=
    selectMember_eq_ok h
  obtain rfl := Option.some.inj (hlayout.symm.trans hlayout')
  obtain rfl := Option.some.inj (hmember.symm.trans hmember')
  obtain ⟨-, -, v, hv, hcomputes⟩ := computes_operandOffset hn hbase hrd hadd E sp
  obtain ⟨s', hruns, hget⟩ := (hcomputes N hN fs s a C ha).exists_runs
  exact ⟨v, s', hN.values d v hv, hruns, hget⟩

/-- **Members stay inside their objects.**  Layouts are sound for any members.  In a unit whose
classes fit the address space, the request of `newObject` is the only one there is for a class,
and the code of the address of a member adds to the address of an object an offset that leaves
room for the member in the memory that was requested. -/
theorem members_inside_objects :
    (∀ name declared hasConstructor,
      (Struct.layOut name declared hasConstructor).LaysOut declared) ∧
    ∀ (p : Source.Program) (symbols : Source.Symbols) (log log' : Log) (program : Flow.Program),
      Flow.Program.ofSource p symbols log = .ok program log' →
      (∀ s ∈ program.structs, s.size < sizeLimit) →
      (∀ (ctx : Context) className (s s' : Builder) o, ctx.structs = program.structs →
        ctx.newObject className s = .ok o s' →
        ∃ memory object bytes rest, o = .register object ∧
          s'.function.registers.get? object = some { ty := .object className } ∧
          s'.function.blocks = s.function.blocks.modify s.current
            (·.write (requestOf memory object bytes ++ rest))) ∧
      ∀ f ∈ program.allFunctions, ∀ className request, f.Requests className request →
        ∃ layout bytes, program.struct? className = some layout ∧ request = .constant (.int bytes) ∧
          ∀ g ∈ program.allFunctions, ∀ id b d base field, g.blocks.get? id = some b →
            .memberAddress d base className field ∈ b.instrs.toList →
            ∃ member, layout.members[field]? = some member ∧
              (BitVec.ofNat 32 member.offset).toNat + member.ty.size ≤ bytes.toNat ∧
              ∀ options n code n', n.Sound →
                Selector.selectInstr ⟨program, g, options⟩ (.memberAddress d base className field)
                  n = .ok (code, n') →
                AddsOffset ⟨program, g, options⟩ d base member.offset code n' := by
  refine ⟨Struct.laysOut_layOut, fun p symbols log log' program h hsize =>
    ⟨fun ctx className s s' o hctx hstep => ?_, fun f hf className request hrequest => ?_⟩⟩
  · obtain ⟨struct, hstruct, -⟩ := EStateM.ofExcept_bind_eq_ok.mp hstep
    obtain rfl : struct.name = className := by
      simpa using List.find?_some (Context.struct_eq_ok hstruct)
    obtain ⟨rfl, log, rfl⟩ := Flow.newObject_cases hstruct hstep
    exact ⟨_, _, _, _, rfl, by simp [Builder.change, Table.get?_push], rfl⟩
  obtain ⟨unit, hunit⟩ := Flow.Program.ofSource_eq_ok h
  obtain ⟨placed, unit₁, -, -, hstructs, hstrings, hinitializer, hfunctions⟩ :=
    Flow.lowers_of_lowerUnit hunit
  have hlinked := (hinitializer.append hfunctions).bodies.linked.2
  obtain ⟨id, b, memory, object, hb, hpart, hobject⟩ := hrequest
  obtain ⟨layout, hlayout, rfl⟩ := (hlinked f hf id b hb).code.creation_of_part hobject hpart
  have hmem : layout ∈ program.structs := List.mem_of_find?_eq_some hlayout
  refine ⟨layout, _, hlayout, rfl, fun g hg id b d base field hb hmember => ?_⟩
  obtain ⟨phrase, hphrase, hmember⟩ := (hlinked g hg id b hb).code.exists_phrase hmember
  obtain ⟨layout', hlayout', hfield⟩ := hphrase.member_of_mem hmember
  obtain rfl := Option.some.inj (hlayout.symm.trans hlayout')
  refine ⟨layout.members[field], List.getElem?_eq_getElem hfield, ?_,
    fun options n code n' hn h => ?_⟩
  · obtain ⟨info, -, hinfo⟩ := List.mem_map.mp (hstructs ▸ hmem)
    have hwithin := (hinfo ▸ Struct.laysOut_layOut _ _ _).within _ (List.getElem_mem hfield)
    have hlimit := hsize layout hmem
    have hbytes : BitVec.ofInt 32 (max (layout.size : Int) 1) =
        BitVec.ofNat 32 (max layout.size 1) := by
      rw [← BitVec.ofInt_natCast]
      norm_cast
    rw [hbytes, BitVec.toNat_ofNat, BitVec.toNat_ofNat]
    unfold sizeLimit at hlimit
    omega
  · have hstruct : (Selector.mk program g options).program.struct? className =
      some layout := hlayout
    exact addsOffset_selectMember hstruct (List.getElem?_eq_getElem hfield) hn h

/-- A class whose word stands behind a byte, and a program that makes an object of it and
writes the word. -/
def dial : Source.Program :=
  let int : Source.Ty := { base := .int }
  let record : Source.Ty := { base := .object "Dial" }
  [ .object {
      name := "Dial"
      members := [⟨{ base := .bool }, [⟨"ready", none⟩]⟩, ⟨int, [⟨"level", none⟩]⟩]
      constructor := none
      methods := [] },
    .function {
      name := "main", returnType := { base := .void }, parameters := []
      body := [.evaluate (.assign int (.member int (.new record record []) "level")
        (.literal int (.integer 3)))] } ]

/-- Surroundings without a symbol, an object of the frame or an answer. -/
def bareGround : Environment Unit where
  symbol _ := 0
  slot _ := 0
  call _ _ _ := none

/-- The second register of a graph holds the address of an object. -/
def heldObject : Flow.State Unit where
  registers r := if r = ⟨1⟩ then some 4096 else none
  memory _ := 0
  world := ()
  trace := []

/-- All registers hold the address of that object. -/
def heldEverywhere : State (Store Unit) where
  registers _ := 4096
  store := { memory := fun _ => 0, world := (), trace := [], incoming := fun _ => 0
             outgoing := fun _ => none, spilled := fun _ => 0 }

theorem carries_heldObject (hcells : sel.source.cells = #[])
    (hv : N.values[(⟨1⟩ : Flow.RegisterId)]? = some v) :
    Carries sel bareGround N heldObject heldEverywhere where
  value r w hr _ := by
    simp only [heldObject] at hr
    split at hr
    · rename_i h1
      exact ⟨v, h1 ▸ hv, Option.some.inj hr⟩
    · simp at hr
  cell r slot hslot := by
    have hlt := Selector.lt_of_slot? hslot
    simp [hcells] at hlt
  seen := ⟨rfl, rfl, rfl⟩
  outgoing := rfl

/-- The code of the address that `dial` writes to. -/
def levelCode (program : Flow.Program) (f : Flow.Function) : Except Error (List Instr × Naming) :=
  Selector.selectInstr ⟨program, f, {}⟩ (.memberAddress ⟨2⟩ (.register ⟨1⟩) "Dial" 1) {}

/-- Eight bytes are requested, and of an object at 4096 the word at 4100 is reached, which ends
inside them. -/
theorem members_inside_objects_dial :
    ∃ symbols program log f, Source.Symbols.collect dial = .ok symbols ∧
      Flow.Program.ofSource dial symbols #[] = .ok program log ∧ f ∈ program.functions ∧
      f.Requests "Dial" (.constant (.int 8)) ∧
      ∃ layout member, program.struct? "Dial" = some layout ∧ layout.members[1]? = some member ∧
        (BitVec.ofNat 32 member.offset).toNat + member.ty.size ≤ (8 : Word).toNat ∧
        ∃ code n' v s', levelCode program f = .ok (code, n') ∧
          Runs (Selector.backing ⟨program, f, {}⟩ bareGround) code heldEverywhere s' ∧
          s'.get (.virtual v) = 4096 + BitVec.ofNat 32 member.offset ∧ member.offset = 4 := by
  obtain ⟨symbols, program, log, hsymbols, hlowered, hfacts⟩ :=
    Flow.Program.exists_ofSource dial (fun _ program =>
      program.structs.all (fun s => s.size < sizeLimit) && program.functions.any fun f =>
        (f.registers.get? ⟨1⟩ == some { ty := .object "Dial" } &&
          (f.blocks.get? ⟨0⟩).any fun b => b.instrs.toList.take 3 ==
            requestOf ⟨0⟩ ⟨1⟩ (.constant (.int 8)) ++
              [.memberAddress ⟨2⟩ (.register ⟨1⟩) "Dial" 1]) &&
        (f.cells == #[] && ((program.struct? "Dial").bind (·.members[1]?)).any (·.offset == 4) &&
          (levelCode program f).toOption.any fun q =>
            (q.2.values[(⟨1⟩ : Flow.RegisterId)]?).isSome))
        (by cbv)
  obtain ⟨hsize, hcode⟩ := Bool.and_eq_true_iff.mp hfacts
  obtain ⟨f, hf, hcode⟩ := List.any_eq_true.mp hcode
  obtain ⟨hcode, hlevel⟩ := Bool.and_eq_true_iff.mp hcode
  obtain ⟨hobject, hblock⟩ := Bool.and_eq_true_iff.mp hcode
  obtain ⟨b, hb, htake⟩ := (Option.any_eq_true _ _).mp hblock
  have hinstrs : requestOf ⟨0⟩ ⟨1⟩ (.constant (.int 8)) ++
      [.memberAddress ⟨2⟩ (.register ⟨1⟩) "Dial" 1] <+: b.instrs.toList :=
    beq_iff_eq.mp htake ▸ List.take_prefix 3 _
  have hrequest : f.Requests "Dial" (.constant (.int 8)) :=
    ⟨⟨0⟩, b, ⟨0⟩, ⟨1⟩, hb, ((List.prefix_append _ _).trans hinstrs).isInfix, beq_iff_eq.mp hobject⟩
  have hall : f ∈ program.allFunctions := List.mem_append_right _ hf
  obtain ⟨layout, bytes, hlayout, hbytes, hfits⟩ :=
    (members_inside_objects.2 dial symbols #[] log program hlowered
      (fun s hs => of_decide_eq_true (List.all_eq_true.mp hsize s hs))).2 f hall _ _ hrequest
  obtain rfl : bytes = 8 := (Flow.Constant.int.inj (Flow.Operand.constant.inj hbytes)).symm
  obtain ⟨member, hmember, hfit, hadds⟩ :=
    hfits f hall ⟨0⟩ b ⟨2⟩ (.register ⟨1⟩) 1 hb (hinstrs.subset (by simp))
  obtain ⟨hlevel, hselected⟩ := Bool.and_eq_true_iff.mp hlevel
  obtain ⟨hcells, hoffset⟩ := Bool.and_eq_true_iff.mp hlevel
  rw [hlayout, Option.bind_some, hmember, Option.any_some, beq_iff_eq] at hoffset
  refine ⟨symbols, program, log, f, hsymbols, hlowered, hf, hrequest, layout, member, hlayout,
    hmember, hfit, ?_⟩
  cases hselect : levelCode program f with
  | error e => simp [hselect, Except.toOption] at hselected
  | ok q =>
    simp only [hselect, Except.toOption, Option.any_some] at hselected
    obtain ⟨v, hv⟩ := Option.isSome_iff_exists.mp hselected
    have hcarries : Carries ⟨program, f, {}⟩ bareGround q.2 heldObject heldEverywhere :=
      carries_heldObject (beq_iff_eq.mp hcells) hv
    obtain ⟨v', s', -, hruns, hget⟩ := hadds {} {} q.1 q.2 Naming.sound_empty hselect
      Unit bareGround
      0 q.2 (.refl _) heldObject heldEverywhere 4096 hcarries rfl
    exact ⟨q.1, q.2, v', s', rfl, hruns, hget, hoffset⟩

end MxStar.Machine
