import MxStar.Proofs.Flow.Drafting

/-!
# Single steps of building

One rule for each step that changes a body under construction: what has to be known
before it and what is known after it.  The edits of the function come first, each
with the reason why it keeps `Function.Draft`, then the steps that make them.
-/

namespace MxStar.Flow

variable {r : RegisterId} {t : Terminator}

namespace Function

variable {f f' : Function} {A A' : BlockId → Set RegisterId} {id c : BlockId}

theorem mem_after : r ∈ f.after A id instrs ↔ r ∈ f.given ∨ r ∈ A id ∨ r ∈ written instrs := by
  simp [after, atStart, or_assoc]

theorem Ends.mono (h : f.Ends A id instrs t) (hgiven : ∀ r ∈ f.given, r ∈ f'.given)
    (hsize : f.blocks.size ≤ f'.blocks.size)
    (hA : ∀ c : BlockId, c.val < f.blocks.size → A' c = A c) (hid : id.val < f.blocks.size)
    (hentry : f'.entry = f.entry) (hexit : f'.exit = f.exit)
    (hwritten : ∀ r ∈ written instrs, r ∈ written instrs') : f'.Ends A' id instrs' t := by
  have hafter : f.after A id instrs ⊆ f'.after A' id instrs' := by
    intro r hr
    rw [mem_after] at hr ⊢
    rw [hA id hid]
    exact hr.imp (hgiven r) (Or.imp_right (hwritten r))
  refine ⟨fun r hr => hafter (h.reads r hr), fun c hc => (h.exists_target c hc).trans_le hsize,
    fun c hc => hentry ▸ h.not_entry c hc, fun c hc => ?_,
    fun v hv => (h.leaves v hv).trans hexit.symm⟩
  rw [hA c (h.exists_target c hc)]
  exact (h.vouches c hc).trans hafter

/-- A register that is no parameter, no cell and not written yet. -/
structure Unused (f : Function) (r : RegisterId) : Prop where
  lt : r.val < f.registers.size
  not_given : r ∉ f.given
  not_written : ∀ id b, f.blocks.get? id = some b → r ∉ written b.instrs.toList

namespace Draft

theorem grow (h : f.Draft A) (hblocks : f'.blocks = f.blocks) (hentry : f'.entry = f.entry)
    (hexit : f'.exit = f.exit) (hsize : f.registers.size ≤ f'.registers.size)
    (hgiven : ∀ r ∈ f.given, r ∈ f'.given)
    (hnodup : f'.given.Nodup)
    (hnew : ∀ r ∈ f'.given, r ∈ f.given ∨ r.val < f'.registers.size ∧
      ∀ id b, f.blocks.get? id = some b → r ∉ written b.instrs.toList) : f'.Draft A where
  given_nodup := hnodup
  given_lt := by
    intro r hr
    rcases hnew r hr with hold | ⟨hlt, -⟩
    · exact (h.given_lt r hold).trans_le hsize
    · exact hlt
  written_nodup := hblocks ▸ h.written_nodup
  written_apart := hblocks ▸ h.written_apart
  written_new := by
    intro id b r hb hr
    rw [hblocks] at hb
    obtain ⟨hlt, hnot⟩ := h.written_new id b r hb hr
    refine ⟨hlt.trans_le hsize, fun hmem => ?_⟩
    rcases hnew r hmem with hold | ⟨-, hunwritten⟩
    · exact hnot hold
    · exact hunwritten id b hb hr
  plain := hblocks ▸ h.plain
  ordered := by
    intro id b hb
    rw [hblocks] at hb
    exact (h.ordered id b hb).mono (Set.union_subset_union_left _ hgiven)
  ends := by
    intro id b t hb ht
    rw [hblocks] at hb
    exact (h.ends id b t hb ht).mono hgiven (by rw [hblocks]) (fun _ _ => rfl)
      (Table.lt_size_of_get? hb) hentry hexit fun _ hr => hr
  finished := hblocks ▸ h.finished

theorem of_instrs (h : f.Draft A) (hgiven : f'.given = f.given)
    (hregs : f'.registers = f.registers)
    (hget : ∀ id d, f'.blocks.get? id = some d → ∃ b, f.blocks.get? id = some b ∧
      d.instrs = b.instrs ∧ (∀ t, d.terminator = some t → f'.Ends A id b.instrs.toList t) ∧
      (d.finished = true → d.terminator.isSome)) : f'.Draft A := by
  refine ⟨hgiven ▸ h.given_nodup, ?_, ?_, ?_, ?_, ?_, ?_, ?_, ?_⟩
  · rw [hgiven, hregs]
    exact h.given_lt
  · intro id d hd
    obtain ⟨b, hb, heq, -⟩ := hget id d hd
    exact heq ▸ h.written_nodup id b hb
  · intro id id' d d' r hd hd' hr hr'
    obtain ⟨b, hb, heq, -⟩ := hget id d hd
    obtain ⟨b', hb', heq', -⟩ := hget id' d' hd'
    exact h.written_apart id id' b b' r hb hb' (heq ▸ hr) (heq' ▸ hr')
  · intro id d r hd hr
    obtain ⟨b, hb, heq, -⟩ := hget id d hd
    rw [hgiven, hregs]
    exact h.written_new id b r hb (heq ▸ hr)
  · intro id d hd
    obtain ⟨b, hb, heq, -⟩ := hget id d hd
    exact heq ▸ h.plain id b hb
  · intro id d hd
    obtain ⟨b, hb, heq, -⟩ := hget id d hd
    rw [heq, atStart, hgiven]
    exact h.ordered id b hb
  · intro id d t hd ht
    obtain ⟨b, hb, heq, hends, -⟩ := hget id d hd
    exact heq ▸ hends t ht
  · intro id d hd
    obtain ⟨b, -, -, -, hfinished⟩ := hget id d hd
    exact hfinished

theorem pushBlock (h : f.Draft A) {K : Set RegisterId} {t : Option Terminator}
    (hf' : f' = { f with blocks := f.blocks.push { label, terminator := t } })
    (hA : A' = Function.update A f.blocks.next K)
    (ht : ∀ t', t = some t' → f'.Ends A' f.blocks.next [] t') : f'.Draft A' := by
  subst hf' hA
  have hget : ∀ id b, (f.blocks.push { label, terminator := t }).get? id = some b →
      id = f.blocks.next ∧ b = { label, terminator := t } ∨ f.blocks.get? id = some b := by
    intro id b hb
    rw [Table.get?_push] at hb
    split at hb
    · exact .inl ⟨‹_›, (Option.some.inj hb).symm⟩
    · exact .inr hb
  have hold : ∀ c : BlockId, c.val < f.blocks.size → Function.update A f.blocks.next K c = A c := by
    intro c hc
    rw [Function.update_of_ne]
    rintro rfl
    exact Nat.lt_irrefl _ hc
  refine ⟨h.given_nodup, h.given_lt, ?_, ?_, ?_, ?_, ?_, ?_, ?_⟩
  · intro id b hb
    rcases hget id b hb with ⟨-, rfl⟩ | hb
    · simp [written]
    · exact h.written_nodup id b hb
  · intro id id' b b' r hb hb' hr hr'
    rcases hget id b hb with ⟨-, rfl⟩ | hb
    · simp [written] at hr
    · rcases hget id' b' hb' with ⟨-, rfl⟩ | hb'
      · simp [written] at hr'
      · exact h.written_apart id id' b b' r hb hb' hr hr'
  · intro id b r hb hr
    rcases hget id b hb with ⟨-, rfl⟩ | hb
    · simp [written] at hr
    · exact h.written_new id b r hb hr
  · intro id b hb
    rcases hget id b hb with ⟨-, rfl⟩ | hb
    · simp
    · exact h.plain id b hb
  · intro id b hb
    rcases hget id b hb with ⟨-, rfl⟩ | hb
    · exact trivial
    · rw [atStart, hold id (Table.lt_size_of_get? hb)]
      exact h.ordered id b hb
  · intro id b t' hb ht'
    rcases hget id b hb with ⟨rfl, rfl⟩ | hb
    · exact ht t' ht'
    · exact (h.ends id b t' hb ht').mono (fun _ hr => hr) (by simp) hold
        (Table.lt_size_of_get? hb) rfl rfl fun _ hr => hr
  · intro id b hb hfinished
    rcases hget id b hb with ⟨-, rfl⟩ | hb
    · simp at hfinished
    · exact h.finished id b hb hfinished

private theorem get?_modify_cases (hb : f.blocks.get? c = some b)
    (hd : (f.blocks.modify c fun _ => b').get? id = some d) :
    id = c ∧ d = b' ∨ id ≠ c ∧ f.blocks.get? id = some d := by
  rw [Table.get?_modify] at hd
  split at hd
  · obtain rfl := ‹c = id›
    rw [hb] at hd
    exact .inl ⟨rfl, (Option.some.inj hd).symm⟩
  · exact .inr ⟨fun h => ‹¬ c = id› h.symm, hd⟩

variable {b : Block} (h : f.Draft A) (hb : f.blocks.get? c = some b)
include h hb

theorem pushInstr
    (hf' : f' = { f with
      blocks := f.blocks.modify c fun _ => { b with instrs := b.instrs.push i } })
    (hreads : ∀ r, .register r ∈ i.operands → r ∈ f.after A c b.instrs.toList)
    (hplain : i.assigned? = i.destination?) (hunused : ∀ r, i.destination? = some r → f.Unused r) :
    f'.Draft A := by
  subst hf'
  have hget : ∀ id d, (f.blocks.modify c fun _ => { b with instrs := b.instrs.push i }).get? id =
      some d → id = c ∧ d = { b with instrs := b.instrs.push i } ∨
        id ≠ c ∧ f.blocks.get? id = some d :=
    fun _ _ => get?_modify_cases hb
  have hmem : ∀ r, r ∈ written (b.instrs.push i).toList ↔
      r ∈ written b.instrs.toList ∨ i.destination? = some r := by
    intro r
    rw [Array.toList_push, written_append]
    simp [written]
  refine ⟨h.given_nodup, h.given_lt, ?_, ?_, ?_, ?_, ?_, ?_, ?_⟩
  · intro id d hd
    rcases hget id d hd with ⟨rfl, rfl⟩ | ⟨-, hd⟩
    · rw [Array.toList_push, written_append]
      cases hi : i.destination? with
      | none => simpa [written, hi] using h.written_nodup id b hb
      | some r =>
        refine (h.written_nodup id b hb).append (by simp [written, hi]) ?_
        simpa [written, hi] using (hunused r hi).not_written id b hb
    · exact h.written_nodup id d hd
  · intro id id' d d' r hd hd' hr hr'
    rcases hget id d hd with ⟨rfl, rfl⟩ | ⟨-, hold⟩ <;>
      rcases hget id' d' hd' with ⟨rfl, rfl⟩ | ⟨-, hold'⟩
    · rfl
    · rcases (hmem r).mp hr with hr | hi
      · exact h.written_apart id id' b d' r hb hold' hr hr'
      · exact absurd hr' ((hunused r hi).not_written id' d' hold')
    · rcases (hmem r).mp hr' with hr' | hi
      · exact h.written_apart id id' d b r hold hb hr hr'
      · exact absurd hr ((hunused r hi).not_written id d hold)
    · exact h.written_apart id id' d d' r hold hold' hr hr'
  · intro id d r hd hr
    rcases hget id d hd with ⟨rfl, rfl⟩ | ⟨-, hd⟩
    · rcases (hmem r).mp hr with hr | hi
      · exact h.written_new id b r hb hr
      · exact ⟨(hunused r hi).lt, (hunused r hi).not_given⟩
    · exact h.written_new id d r hd hr
  · intro id d hd j hj
    rcases hget id d hd with ⟨rfl, rfl⟩ | ⟨-, hd⟩
    · rw [Array.toList_push, List.mem_append, List.mem_singleton] at hj
      rcases hj with hj | rfl
      · exact h.plain id b hb j hj
      · exact hplain
    · exact h.plain id d hd j hj
  · intro id d hd
    rcases hget id d hd with ⟨rfl, rfl⟩ | ⟨-, hd⟩
    · rw [Array.toList_push, ordered_concat]
      exact ⟨h.ordered id b hb, hreads⟩
    · exact h.ordered id d hd
  · intro id d t hd ht
    rcases hget id d hd with ⟨rfl, rfl⟩ | ⟨-, hd⟩
    · exact (h.ends id b t hb ht).mono (fun _ hr => hr) (by simp) (fun _ _ => rfl)
        (Table.lt_size_of_get? hb) rfl rfl fun r hr => (hmem r).mpr (.inl hr)
    · exact (h.ends id d t hd ht).mono (fun _ hr => hr) (by simp) (fun _ _ => rfl)
        (Table.lt_size_of_get? hd) rfl rfl fun _ hr => hr
  · intro id d hd hfinished
    rcases hget id d hd with ⟨rfl, rfl⟩ | ⟨-, hd⟩
    · exact h.finished id b hb hfinished
    · exact h.finished id d hd hfinished

theorem finish
    (hf' : f' = { f with
      blocks := f.blocks.modify c fun _ => { b with terminator := some t, finished := true } })
    (ht : f.Ends A c b.instrs.toList t) : f'.Draft A := by
  refine h.of_instrs (by rw [hf']; rfl) (by rw [hf']) fun id d hd => ?_
  have hmono : ∀ {d0 t'}, f.blocks.get? id = some d0 → f.Ends A id d0.instrs.toList t' →
      f'.Ends A id d0.instrs.toList t' := by
    intro d0 t' hd0 hends
    rw [hf']
    exact hends.mono (fun _ hr => hr) (by simp) (fun _ _ => rfl) (Table.lt_size_of_get? hd0) rfl rfl
      fun _ hr => hr
  rw [hf'] at hd
  rcases get?_modify_cases hb hd with ⟨rfl, rfl⟩ | ⟨-, hd⟩
  · exact ⟨b, hb, rfl, fun t' ht' => hmono hb (Option.some.inj ht' ▸ ht), fun _ => rfl⟩
  · exact ⟨d, hd, rfl, fun t' ht' => hmono hd (h.ends id d t' hd ht'), h.finished id d hd⟩

end Draft

end Function

/-! ## Moments of building -/

/-- Nothing that a moment of building rests on is lost outside the current block. -/
structure Builder.Keeps (s s' : Builder) : Prop where
  current : s'.current = s.current
  scopes : s'.scopes = s.scopes
  strings : s'.strings = s.strings
  layout : s'.function.layout = s.function.layout
  entry : s'.function.entry = s.function.entry
  exit : s'.function.exit = s.function.exit
  indices : s'.function.blocks.indices = s.function.blocks.indices
  registers : s'.function.Extends s.function
  given : ∀ r ∈ s.function.given, r ∈ s'.function.given
  others : ∀ id, id ≠ s.current → s'.function.blocks.get? id = s.function.blocks.get? id

section

variable {s s' : Builder} (hcur : s'.current = s.current) (hshared : s'.shared = s.shared)
include hcur hshared

theorem Builder.Keeps.of_eq (hf : s'.function = s.function) : s.Keeps s' :=
  ⟨hcur, congrArg Prod.fst hshared, congrArg Prod.snd hshared, by rw [hf], by rw [hf],
    by rw [hf], by rw [hf],
    by rw [hf]; exact .refl _, by simp [hf], by simp [hf]⟩

theorem Builder.Keeps.of_modify
    (hf : s'.function = { s.function with
      blocks := s.function.blocks.modify s.current fun _ => b }) :
    s.Keeps s' := by
  refine ⟨hcur, congrArg Prod.fst hshared, congrArg Prod.snd hshared, by rw [hf], by rw [hf],
    by rw [hf], ?_,
    by rw [hf]; exact .refl _, by rw [hf]; exact fun _ h => h, fun id hid => ?_⟩
  · rw [hf, Table.indices_modify]
  · rw [hf, Table.get?_modify, if_neg fun h => hid h.symm]

end

namespace Plan.Names

variable {P : Plan} {κ κ' : Facts} {known : Source.Typing} {scopes : ScopeStack}

theorem of_subset (h : P.Names κ known scopes) (hgiven : κ.given ⊆ κ'.given)
    (htypes : κ.types ⊆ κ'.types) : P.Names κ' known scopes := by
  intro name
  have hname := h name
  cases hresolve : scopes.resolve? name with
  | none => simpa [hresolve] using hname
  | some found =>
    rw [hresolve] at hname
    obtain ⟨hkept, ⟨r, hr, hgives⟩, hsource⟩ := hname
    exact ⟨hkept, ⟨r, hr, hgiven hgives.given, htypes hgives.type⟩, hsource⟩

theorem mono (h : P.Names κ known scopes) (hle : κ ≤ κ') : P.Names κ' known scopes :=
  h.of_subset (Facts.le_iff.mp hle).given (Facts.le_iff.mp hle).types

end Plan.Names

namespace Stage

variable {P : Plan} {A : BlockId → Set RegisterId} {κ κ' : Facts} {T T' : Option Terminator}
  {W : List Waiting} {O : Surroundings} {N : Source.Typing} {s s' : Builder} {K : Set RegisterId}

variable (h : Stage P A κ T W O N s)
include h

theorem nodup : (s.function.layout ++ W.map Waiting.block).Nodup :=
  h.laidOut.nodup_iff.mpr (Table.nodup_indices _)

theorem entry_lt : s.function.entry.val < s.function.blocks.size := by
  rw [← Table.mem_indices]
  exact h.laidOut.mem_iff.mp (List.mem_append_left _ (List.mem_of_mem_head? h.first))

theorem ne_current (hw : w ∈ W) : w.block ≠ s.current := by
  intro heq
  have hdisj := List.disjoint_of_nodup_append h.nodup
  exact hdisj h.current (heq ▸ List.mem_map_of_mem hw)

theorem describes (hf : f.Extends s.function) : κ.Describes f := h.types.extend hf

theorem edit (hkeeps : s.Keeps s') (hdraft : s'.function.Draft A)
    (hhere : ∃ b, s'.function.blocks.get? s.current = some b ∧ b.terminator = T' ∧
      (b.finished = false → K ⊆ s'.function.after A s.current b.instrs.toList))
    (hfits : ∀ t, T' = some t → P.Fits (κ.within K) t)
    (hholds : ∀ f : Function, f.Extends s'.function → (P.checking f).Holds s'.function) :
    Stage P A (κ.within K) T' W O N s' where
  draft := hdraft
  laidOut := hkeeps.layout ▸ hkeeps.indices ▸ h.laidOut
  first := hkeeps.layout ▸ hkeeps.entry ▸ h.first
  current := hkeeps.layout ▸ hkeeps.current ▸ h.current
  here := hkeeps.current ▸ hhere
  ended := by
    rw [hkeeps.layout, hkeeps.current]
    intro id hid hne b hb
    rw [hkeeps.others id hne] at hb
    exact h.ended id hid hne b hb
  waiting := by
    intro w hw
    rw [hkeeps.others _ (h.ne_current hw)]
    exact h.waiting w hw
  fits := hfits
  facts := by
    intro p hp
    obtain ⟨hlt, hne, hA⟩ := h.facts p hp
    rw [← Table.mem_indices] at hlt ⊢
    rw [hkeeps.indices, hkeeps.entry]
    exact ⟨hlt, hne, hA⟩
  known := by
    intro id hid
    rw [← Table.mem_indices, hkeeps.indices, Table.mem_indices] at hid
    exact hkeeps.entry ▸ h.known id hid
  dead := by
    intro id hid
    rw [← Table.mem_indices, hkeeps.indices, Table.mem_indices]
    exact h.dead id hid
  entry := hkeeps.entry ▸ h.entry
  exit := hkeeps.exit ▸ h.exit
  given := fun r hr => hkeeps.given r (h.given r hr)
  outer := hkeeps.scopes ▸ h.outer
  holds := hholds
  types := h.describes hkeeps.registers
  strings := hkeeps.strings ▸ h.strings
  names := by
    rw [hkeeps.scopes]
    exact h.names.of_subset Set.Subset.rfl Set.Subset.rfl

theorem grow (hkeeps : s.Keeps s') (hdraft : s'.function.Draft A)
    (hblocks : s'.function.blocks = s.function.blocks)
    (hholds : ∀ f : Function, f.Extends s'.function → (P.checking f).Holds s'.function) :
    Stage P A κ T W O N s' := by
  obtain ⟨b, hb, hT, hhere⟩ := h.here
  refine h.edit hkeeps hdraft ⟨b, by rw [hblocks, hb], hT, fun hopen r hr => ?_⟩ h.fits hholds
  rw [Function.mem_after]
  exact (Function.mem_after.mp (hhere hopen hr)).imp_left (hkeeps.given r)

theorem know (hle : κ ≤ κ') (hregs : κ'.registers = κ.registers)
    (hblocks : κ'.blocks = κ.blocks)
    (hdead : ∀ id ∈ κ'.dead, id.val < s.function.blocks.size ∧ Overreaches (A id))
    (hgiven : ∀ r ∈ κ'.given, r ∈ s.function.given)
    (htypes : κ'.Describes s.function) (hstrings : κ'.strings ≤ s.strings.size) :
    Stage P A κ' T W O N s where
  draft := h.draft
  laidOut := h.laidOut
  first := h.first
  current := h.current
  here := hregs ▸ h.here
  ended := h.ended
  waiting := by
    intro w hw
    obtain ⟨hknown, hfits, hb⟩ := h.waiting w hw
    exact ⟨hblocks ▸ hknown, fun t ht => (hfits t ht).within_mono hle, hb⟩
  fits := fun t ht => (h.fits t ht).mono hle
  facts := hblocks ▸ h.facts
  known := hblocks ▸ h.known
  dead := hdead
  entry := h.entry
  exit := by
    rw [hblocks, ← (Facts.le_iff.mp hle).exit]
    exact h.exit
  given := hgiven
  outer := h.outer
  holds := h.holds
  types := htypes
  strings := hstrings
  names := h.names.mono hle

theorem learn (hr : r ∈ s.function.given) : Stage P A (κ.learn r) T W O N s := by
  refine h.know (κ.le_learn r) rfl rfl h.dead ?_ h.types h.strings
  rintro q (rfl | hq)
  · exact hr
  · exact h.given q hq

theorem assume (hr : s.function.registerType r = .ok ty) : Stage P A (κ.assume r ty) T W O N s := by
  refine h.know (κ.le_assume r ty) rfl rfl h.dead h.given ?_ h.strings
  rintro q ty' (heq | hq)
  · cases heq
    exact hr
  · exact h.types q ty' hq

theorem bury {dead : Set BlockId}
    (hdead : ∀ id ∈ dead, id.val < s.function.blocks.size ∧ Overreaches (A id)) :
    Stage P A (κ.bury dead) T W O N s :=
  h.know (κ.le_bury dead) rfl rfl (fun id hid => hid.elim (h.dead id) (hdead id)) h.given h.types
    h.strings

theorem rescope {scopes : ScopeStack} {strings : StringPool} (hnames : P.Names κ N' scopes)
    (houter : scopes.outer = O') (hstrings : s.strings.size ≤ strings.size) :
    Stage P A κ T W O' N' { s with scopes, strings } :=
  ⟨h.draft, h.laidOut, h.first, h.current, h.here, h.ended, h.waiting, h.fits, h.facts, h.known,
    h.dead, h.entry, h.exit, h.given, houter, h.holds, h.types, h.strings.trans hstrings, hnames⟩

theorem mem_after (hb : s.function.blocks.get? s.current = some b) (hopen : b.finished = false)
    (hr : ∃ ty, P.Has κ (.register r) ty) : r ∈ s.function.after A s.current b.instrs.toList := by
  obtain ⟨b0, hb0, -, hhere⟩ := h.here
  obtain rfl := Option.mem_unique hb hb0
  obtain ⟨ty, hr⟩ := hr
  rcases hr.value r rfl with hr | hr
  · exact hhere hopen hr
  · exact Function.mem_after.mpr (.inl (h.given r hr))

theorem openBlock (nextLabel : Nat) (label : String) {t : Option Terminator}
    (ht : ∀ t', t = some t' → P.Fits κ t') :
    Stage P (Function.update A s.function.blocks.next κ.registers)
      (κ.openBlock s.function.blocks.next) T (⟨s.function.blocks.next, t, κ.registers⟩ :: W) O N
      { s with
        function := { s.function with
          blocks := s.function.blocks.push { label, terminator := t } }
        nextLabel } := by
  have hold : ∀ c : BlockId, c.val < s.function.blocks.size →
      Function.update A s.function.blocks.next κ.registers c = A c := by
    intro c hc
    rw [Function.update_of_ne]
    rintro rfl
    exact Nat.lt_irrefl _ hc
  have hsize := Table.size_push s.function.blocks { label, terminator := t }
  have hentry := h.entry_lt
  have hget : ∀ {id b}, s.function.blocks.get? id = some b →
      (s.function.blocks.push { label, terminator := t }).get? id = some b :=
    fun hb => Table.get?_push_of_get? hb _
  refine ⟨?_, ?_, ?_, ?_, ?_, ?_, ?_, ?_, ?_, ?_, ?_, ?_, ?_, ?_, ?_, ?_, ?_, ?_, ?_⟩
  · refine h.draft.pushBlock rfl rfl fun t' ht' => ?_
    have hfits := ht t' ht'
    refine ⟨fun r hr => ?_, fun c hc => ?_, fun c hc => ?_, fun c hc => ?_,
      fun v hv => absurd hv (hfits.stays v)⟩
    · rw [Function.mem_after, Function.update_self]
      obtain ⟨ty, hty⟩ := hfits.reads _ hr
      rcases hty.value r rfl with hr | hr
      · exact .inr (.inl hr)
      · exact .inl (h.given r hr)
    · obtain ⟨k, hk, -⟩ := hfits.allows c hc
      exact hsize ▸ Nat.lt_succ_of_lt (h.facts _ hk).1
    · obtain ⟨k, hk, -⟩ := hfits.allows c hc
      exact (h.facts _ hk).2.1
    · obtain ⟨k, hk, hsub⟩ := hfits.allows c hc
      obtain ⟨hlt, -, hA⟩ := h.facts _ hk
      rw [hold c hlt, show A c = k from hA]
      intro r hr
      rw [Function.mem_after, Function.update_self]
      exact .inr (.inl (hsub hr))
  · have hperm := h.laidOut.append_right [s.function.blocks.next]
    rw [Table.indices_push, List.map_cons]
    refine List.Perm.trans ?_ hperm
    rw [List.append_assoc]
    exact List.Perm.append_left _ (List.perm_append_singleton _ _).symm
  · exact h.first
  · exact h.current
  · obtain ⟨b, hb, hT, hhere⟩ := h.here
    refine ⟨b, hget hb, hT, fun hopen r hr => ?_⟩
    rw [Function.mem_after, hold _ (Table.lt_size_of_get? hb)]
    exact Function.mem_after.mp (hhere hopen hr)
  · intro id hid hne b hb
    have hlt : id.val < s.function.blocks.size := by
      rw [← Table.mem_indices]
      exact h.laidOut.mem_iff.mp (List.mem_append_left _ hid)
    obtain ⟨d, hd⟩ := Table.exists_get? hlt
    obtain rfl := Option.some.inj ((hget hd).symm.trans hb)
    exact h.ended id hid hne d hd
  · intro w hw
    rcases List.mem_cons.mp hw with rfl | hw
    · refine ⟨Set.mem_insert _ _, fun t' ht' => ?_, _,
        by rw [Table.get?_push, if_pos rfl], rfl, rfl⟩
      exact (ht t' ht').mono (κ.le_openBlock _)
    · obtain ⟨hknown, hfits, b, hb, hwaits⟩ := h.waiting w hw
      refine ⟨Set.mem_insert_of_mem _ hknown, fun t' ht' => ?_, b, hget hb, hwaits⟩
      exact (hfits t' ht').within_mono (κ.le_openBlock _)
  · exact fun t' ht' => (h.fits t' ht').mono (κ.le_openBlock _)
  · rintro p (rfl | hp)
    · refine ⟨hsize ▸ Nat.lt_succ_self _, ?_, Function.update_self _ _ _⟩
      rintro heq
      exact Nat.lt_irrefl _ (heq ▸ hentry)
    · obtain ⟨hlt, hne, hA⟩ := h.facts p hp
      exact ⟨hsize ▸ Nat.lt_succ_of_lt hlt, hne, (hold _ hlt).trans hA⟩
  · intro id hid
    by_cases hnext : id = s.function.blocks.next
    · exact .inr (.inl (by rw [hnext, Function.update_self]))
    · have hlt : id.val < s.function.blocks.size :=
        Nat.lt_of_le_of_ne (Nat.le_of_lt_succ (Nat.lt_of_lt_of_eq hid hsize))
          fun heq => hnext (congrArg Index.mk heq)
      rw [hold id hlt]
      exact (h.known id hlt).imp_right .inr
  · intro id hid
    obtain ⟨hlt, hover⟩ := h.dead id hid
    exact ⟨hsize ▸ Nat.lt_succ_of_lt hlt, (hold id hlt).symm ▸ hover⟩
  · exact (hold _ hentry).trans h.entry
  · exact ⟨h.exit.1, Set.mem_insert_of_mem _ h.exit.2⟩
  · exact h.given
  · exact h.outer
  · intro f hf
    refine (h.holds f hf).pushBlock label fun u hu => ?_
    exact (ht u hu).checking (h.describes hf)
  · exact h.types
  · exact h.strings
  · exact h.names.mono (κ.le_openBlock _)

theorem enter (hW : W.Perm (w :: W')) (hT : T.isSome) :
    Stage P A (κ.within w.known) w.terminator W' O N { s with
        function := { s.function with layout := s.function.layout ++ [w.block] }
        current := w.block } := by
  have hw : w ∈ W := hW.mem_iff.mpr (.head _)
  obtain ⟨hknown, hfits, b, hb, hterm, -⟩ := h.waiting w hw
  refine ⟨?_, ?_, ?_, ?_, ?_, ?_, ?_, hfits, h.facts, h.known, h.dead, h.entry, h.exit,
    h.given, h.outer, ?_,
    h.types, h.strings, h.names.of_subset Set.Subset.rfl Set.Subset.rfl⟩
  · exact h.draft.grow rfl rfl rfl le_rfl (fun _ hr => hr) h.draft.given_nodup fun _ hr => .inl hr
  · rw [List.append_assoc]
    refine List.Perm.trans (List.Perm.append_left _ ?_) h.laidOut
    exact (hW.map Waiting.block).symm
  · rw [List.head?_append, h.first]
    rfl
  · simp
  · refine ⟨b, hb, hterm, fun _ r hr => ?_⟩
    rw [Function.mem_after, (h.facts _ hknown).2.2]
    exact .inr (.inl hr)
  · intro id hid hne d hd
    obtain hid | hid : id ∈ s.function.layout ∨ id = w.block := by simpa using hid
    · by_cases hc : id = s.current
      · obtain ⟨b0, hb0, hT0, -⟩ := h.here
        obtain rfl := Option.some.inj ((hc ▸ hd).symm.trans hb0)
        rw [hT0]
        exact hT
      · exact h.ended id hid hc d hd
    · exact absurd hid hne
  · exact fun w' hw' => h.waiting w' (hW.mem_iff.mpr (.tail _ hw'))
  · exact fun f hf => ⟨(h.holds f hf).cells, (h.holds f hf).flat, (h.holds f hf).instrs,
      (h.holds f hf).terminators⟩

end Stage

/-! ## The steps of the library -/

section

variable {P : Plan} {κ : Facts} {T : Option Terminator} {W : List Waiting} {O : Surroundings}
  {N : Source.Typing}

variable {s s' : Builder} {e : Error}

namespace Build

private theorem isStructural_of_changeCurrent {change : Block → Option Block}
    {dropped : String → Event}
    (h : editCurrent (fun f b => f.changeBlock b change dropped) s = .error e s') :
    e.isStructural = false := by
  rcases EStateM.bind_eq_error.mp h with hget | ⟨_, _, hget, h⟩
  · cases hget
  obtain ⟨rfl, rfl⟩ := get_eq_ok hget
  replace h := EStateM.bind_eq_error (x := logged _) |>.mp h
  rcases h with h | ⟨_, _, -, hmodify⟩
  · simp only [logged] at h
    split at h
    · cases h
    · rename_i e1 log hchange
      obtain rfl : e1 = e := by injection h
      rcases EStateM.bind_eq_error.mp hchange with hfind | ⟨b, log1, -, hmatch⟩
      · unfold Table.find at hfind
        split at hfind
        · cases hfind
        · cases hfind
          rfl
      · cases hc : change b with
        | some changed =>
          rw [hc] at hmatch
          cases hmatch
        | none =>
          rw [hc] at hmatch
          cases hmatch
  · cases hmodify

theorem isStructural_of_terminate (h : terminate t s = .error e s') : e.isStructural = false :=
  isStructural_of_changeCurrent h

end Build

open Build

variable {α : Type} {i : Instr} {ty : Ty} {instr : RegisterId → Instr} {o : Operand}

theorem Drafts.of_exists {post : α → Builder → Prop} {Q : Facts → Prop}
    (h : ∀ κ', κ ≤ κ' → Q κ' → Drafts (Staged P κ' T W O N) step post) :
    Drafts (fun s => ∃ κ', κ ≤ κ' ∧ Q κ' ∧ Staged P κ' T W O N s) step post := by
  rintro s ⟨κ', hle, hQ, hs⟩
  exact h κ' hle hQ s hs

theorem yields_of_drafts {Q : Facts → α → Prop}
    (hstep : Drafts (Staged P κ T W O N) step fun a s => ∃ κ', κ ≤ κ' ∧ Q κ' a ∧
      Staged P κ' T W O N s)
    (hmoves : ∀ s a s', step s = .ok a s' → κ.strings ≤ s.strings.size → Moves P.vocabulary s s') :
    Yields P κ T W O N step Q := by
  rintro s ⟨hs, hmoved⟩
  have hpost := hstep s hs
  cases h : step s with
  | ok a s' =>
    rw [h] at hpost
    obtain ⟨κ', hle, ha, hs'⟩ := hpost
    obtain ⟨A, hstage⟩ := hs
    exact ⟨κ', T, N, hle, ⟨rfl, rfl, ha⟩, hs', hmoved.trans (hmoves s a s' h hstage.strings)⟩
  | error e s' =>
    rw [h] at hpost
    exact hpost

/-- An instruction is appended unless the block is finished; either way what it
writes may be taken to have a value from then on. -/
theorem drafts_emit (hi : P.Accepts κ i) :
    Drafts (fun s => Staged P κ T W O N s ∧ ∀ r, i.destination? = some r → s.function.Unused r)
      (emit i) fun _ => Staged P (κ.within (κ.registers ∪ {r | i.destination? = some r}))
        T W O N := by
  refine .of_eq ?_ fun s e s' _ h => isStructural_of_changeCurrent h
  rintro s a s' ⟨⟨A, hs⟩, hunused⟩ h
  obtain ⟨b, hb, hcur, hshared, hcases⟩ := emit_eq_ok h
  obtain ⟨b0, hb0, hT, hhere⟩ := hs.here
  obtain rfl := Option.mem_unique hb hb0
  have hfits : ∀ t, T = some t →
      P.Fits (κ.within (κ.registers ∪ {r | i.destination? = some r})) t :=
    fun t ht => (hs.fits t ht).mono (κ.le_within Set.subset_union_left)
  rcases hcases with ⟨hfinished, hf⟩ | ⟨hopen, hf⟩
  · have hkeeps := Builder.Keeps.of_eq hcur hshared hf
    refine ⟨A, hs.edit hkeeps (by rw [hf]; exact hs.draft) ⟨b, by rw [hf, hb], hT, ?_⟩ hfits ?_⟩
    · simp [hfinished]
    · rw [hf]
      exact hs.holds
  · have hgiven : s'.function.given = s.function.given := by rw [hf]; rfl
    have hkeeps := Builder.Keeps.of_modify hcur hshared hf
    have hdraft : s'.function.Draft A :=
      hs.draft.pushInstr hb hf (fun r hr => hs.mem_after hb hopen (hi.reads _ hr)) hi.plain hunused
    refine ⟨A, hs.edit hkeeps hdraft
      ⟨{ b with instrs := b.instrs.push i }, ?_, hT, fun _ r hr => ?_⟩ hfits ?_⟩
    · rw [hf, Table.get?_modify, if_pos rfl, hb]
      rfl
    · rw [Function.mem_after, hgiven, Array.toList_push, written_append, List.mem_append]
      rcases hr with hr | hr
      · have hold := Function.mem_after.mp (hhere hopen hr)
        exact hold.imp_right (Or.imp_right .inl)
      · refine .inr (.inr (.inr ?_))
        simpa [written] using hr
    · rw [hf]
      intro f hf'
      refine (hs.holds f hf').modify _ (fun j hj => ?_) ((hs.holds f hf').terminators _ b hb)
      rcases Array.mem_push.mp hj with hj | rfl
      · exact (hs.holds f hf').instrs _ b hb j hj
      · exact hi.checking (hs.describes hf')

theorem drafts_emit_none (hi : P.Accepts κ i) (hnone : i.destination? = none) :
    Drafts (Staged P κ T W O N) (emit i)
      fun _ s => ∃ κ', κ ≤ κ' ∧ True ∧ Staged P κ' T W O N s := by
  refine (drafts_emit hi).mono (fun s hs => ⟨hs, by simp [hnone]⟩) fun _ s hs => ?_
  exact ⟨_, κ.le_within Set.subset_union_left, trivial, hs⟩

theorem moves_emit (h : emit i s = .ok a s') (hle : n ≤ s.strings.size)
    (hphrase : ∀ registers, Phrase V n registers [i]) : Moves V s s' := by
  obtain ⟨log, rfl⟩ := emit_cases h
  exact .tail (.single (.note s log)) (.code _ [i] ((hphrase _).mono hle))

theorem yields_emit (hi : P.Accepts κ i) (hnone : i.destination? = none)
    (hphrase : ∀ registers, Phrase P.vocabulary κ.strings registers [i]) :
    Yields P κ T W O N (emit i) fun _ _ => True :=
  yields_of_drafts (drafts_emit_none hi hnone) fun _ _ _ h hle => moves_emit h hle hphrase

theorem drafts_createRegister (hty : ty.IsFlat) (name : Option String) :
    Drafts (Staged P κ T W O N) (createRegister ty name)
      fun r s => Staged P (κ.assume r ty) T W O N s ∧ s.function.Unused r := by
  refine .of_eq ?_ fun s e s' _ h => by simp [createRegister, modifyGet, MonadStateOf.modifyGet,
    EStateM.modifyGet] at h
  rintro s r s' ⟨A, hs⟩ h
  obtain ⟨rfl, rfl⟩ := createRegister_eq_ok h
  have hnew : ∀ q : RegisterId, q.val < s.function.registers.size →
      q ≠ s.function.registers.next := by
    rintro q hq rfl
    exact Nat.lt_irrefl _ hq
  have htype := Function.registerType_next (f := s.function)
    (show { s.function with registers := s.function.registers.push { ty, name } }.registers =
      s.function.registers.push { ty, name } from rfl)
  refine ⟨⟨A, Stage.assume ?_ htype⟩, ⟨?_, ?_, ?_⟩⟩
  · refine hs.grow ⟨rfl, rfl, rfl, rfl, rfl, rfl, rfl, Function.extends_push rfl, fun _ h => h,
      fun _ _ => rfl⟩ ?_ rfl fun f hf => ?_
    · exact hs.draft.grow rfl rfl rfl (by simp) (fun _ h => h) hs.draft.given_nodup
        fun r hr => .inl hr
    · exact (hs.holds f (hf.trans (Function.extends_push rfl))).pushRegister rfl rfl
        (fun _ hc => .inl hc) hty
  · simp only [Table.size_push]
    exact Nat.lt_succ_self _
  · exact fun hmem => hnew _ (hs.draft.given_lt _ hmem) rfl
  · exact fun id b hb hmem => hnew _ (hs.draft.written_new id b _ hb hmem).1 rfl

section

variable (hty : ty.IsFlat) (hwrites : ∀ d, (instr d).destination? = some d)
  (hinstr : ∀ d, P.Accepts (κ.assume d ty) (instr d))
include hty hwrites hinstr

theorem drafts_define : Drafts (Staged P κ T W O N) (define ty instr)
      fun o s => ∃ κ', κ ≤ κ' ∧ P.Computed κ' o ty ∧ Staged P κ' T W O N s := by
  refine Drafts.bind (drafts_createRegister hty none) fun d => ?_
  have hunused : ∀ s : Builder, Staged P (κ.assume d ty) T W O N s ∧ s.function.Unused d →
      Staged P (κ.assume d ty) T W O N s ∧
        ∀ r, (instr d).destination? = some r → s.function.Unused r := by
    rintro s ⟨hs, hd⟩
    refine ⟨hs, fun r hr => ?_⟩
    obtain rfl := Option.some.inj ((hwrites d).symm.trans hr)
    exact hd
  refine ((drafts_emit (hinstr d)).mono hunused fun _ _ h => h).bind fun _ =>
    Drafts.pure fun s hs => ?_
  refine ⟨_, (κ.le_assume d ty).trans (Facts.le_within _ Set.subset_union_left),
    ⟨d, rfl, ?_, ?_, ?_⟩, hs⟩
  · rintro _ ⟨⟩
    exact .inl (.inr (hwrites d))
  · exact trivial
  · exact fun f hf => hf d ty (Set.mem_insert _ _)

theorem yields_define (hphrase : ∀ d registers, registers.get? d = some { ty } →
      Phrase P.vocabulary κ.strings registers [instr d]) :
    Yields P κ T W O N (define ty instr) fun κ' o => P.Computed κ' o ty := by
  refine yields_of_drafts (drafts_define hty hwrites hinstr) fun s o s' h hle => ?_
  obtain ⟨rfl, log, rfl⟩ := define_cases h
  refine .tail (.tail (.single (.register s { ty })) (.note _ log)) (.code _ _ ?_)
  exact (hphrase _ _ (by simp [Table.get?_push])).mono hle

end

theorem Plan.Accepts.known (h : P.Accepts κ i) (ho : o ∈ i.operands) :
    o.Known P.vocabulary κ.strings := by
  obtain ⟨ty, hty⟩ := h.reads o ho
  exact hty.known

theorem yields_definePlain (hty : ty.IsFlat) (hplain : ∀ d, (instr d).IsPlain)
    (hwrites : ∀ d, (instr d).destination? = some d)
    (hinstr : ∀ d, P.Accepts (κ.assume d ty) (instr d)) :
    Yields P κ T W O N (define ty instr) fun κ' o => P.Computed κ' o ty :=
  yields_define hty hwrites hinstr fun d _ _ =>
    .plain (instr d) (hplain d) fun _ ho => (hinstr d).known ho

theorem yields_createCell (hty : ty.IsKept) (hsized : P.sized → ty ≠ .void) (name : Option String) :
    Yields P κ T W O N (createCell ty name) fun κ' r => κ'.Gives r ty.pointerTo := by
  refine yields_of_drafts (.of_eq ?_ fun s e s' _ h => ?_) fun s r s' h _ => ?_
  · rintro s r s' ⟨A, hs⟩ h
    obtain ⟨rfl, rfl⟩ := createCell_eq_ok h
    have hgiven : ∀ q, q ∈ Function.given { s.function with
          registers := s.function.registers.push { ty := ty.pointerTo, name }
          cells := s.function.cells.push { register := s.function.registers.next, ty } } ↔
        q ∈ s.function.given ∨ q = s.function.registers.next := by
      intro q
      simp [Function.given, or_assoc]
    refine ⟨(κ.learn s.function.registers.next).assume s.function.registers.next ty.pointerTo,
      (κ.le_learn _).trans (Facts.le_assume _ _ _), ⟨Set.mem_insert _ _, Set.mem_insert _ _⟩, A, ?_⟩
    have htype := Function.registerType_next (f := s.function) (show { s.function with
          registers := s.function.registers.push { ty := ty.pointerTo, name }
          cells := s.function.cells.push { register := s.function.registers.next, ty } }.registers =
        s.function.registers.push { ty := ty.pointerTo, name } from rfl)
    refine Stage.assume (Stage.learn ?_ ((hgiven _).mpr (.inr rfl))) htype
    refine hs.grow ⟨rfl, rfl, rfl, rfl, rfl, rfl, rfl, Function.extends_push rfl,
      fun q hq => (hgiven q).mpr (.inl hq), fun _ _ => rfl⟩ ?_ rfl fun f hf => ?_
    · refine hs.draft.grow rfl rfl rfl (by simp) (fun q hq => (hgiven q).mpr (.inl hq)) ?_ ?_
      · have hfresh : s.function.registers.next ∉ s.function.given := fun hmem =>
          Nat.lt_irrefl _ (hs.draft.given_lt _ hmem)
        have hnodup : (s.function.given ++ [s.function.registers.next]).Nodup :=
          hs.draft.given_nodup.append (List.nodup_singleton _) (by simpa using hfresh)
        simpa [Function.given] using hnodup
      · intro q hq
        refine ((hgiven q).mp hq).imp_right ?_
        rintro rfl
        refine ⟨?_, fun id b hb hmem => ?_⟩
        · simp only [Table.size_push]
          exact Nat.lt_succ_self _
        · exact Nat.lt_irrefl _ (hs.draft.written_new id b _ hb hmem).1
    · refine (hs.holds f (hf.trans (Function.extends_push rfl))).pushRegister rfl rfl
        (fun c hc => ?_) hty.pointerTo.flat
      rcases Array.mem_push.mp hc with hc | rfl
      · exact .inl hc
      · exact .inr ⟨hty, hf.registerType htype, hsized⟩
  · simp [createCell, createRegister, modifyFunction, modify, modifyGet, MonadStateOf.modifyGet,
      EStateM.modifyGet, bind, EStateM.bind, pure, EStateM.pure] at h
  · obtain ⟨-, rfl⟩ := createCell_eq_ok h
    exact .tail (.single (.register s _)) (.cell _ _)

/-- A terminator ends the current block, unless that is finished.  What follows is dropped, so
it may count on every register. -/
theorem drafts_finish (ht : P.Fits κ t) :
    Extends P κ T W O N (terminate t) fun κ' T' N' _ =>
      κ'.registers = Set.univ ∧ T'.isSome ∧ N' = N := by
  refine .of_eq ?_ fun s e s' _ h => isStructural_of_terminate h
  rintro s a s' ⟨⟨A, hs⟩, hmoved⟩ h
  have hmoves : Moves P.vocabulary s s' := by
    obtain ⟨log, rfl⟩ := terminate_cases h
    refine .tail (.single (.note s log)) (.finish _ t fun o ho => ?_)
    obtain ⟨ty, hty⟩ := ht.reads o ho
    exact hty.known.mono hs.strings
  obtain ⟨b, hb, hcur, hshared, hcases⟩ := terminate_eq_ok h
  obtain ⟨b0, hb0, hT, hhere⟩ := hs.here
  obtain rfl := Option.mem_unique hb hb0
  have hle := κ.le_within (Set.subset_univ κ.registers)
  rcases hcases with ⟨hfinished, hf⟩ | ⟨hopen, hf⟩
  · have hkeeps := Builder.Keeps.of_eq hcur hshared hf
    refine ⟨_, T, N, hle, ⟨rfl, hT ▸ hs.draft.finished _ b hb hfinished, rfl⟩, ⟨A, ?_⟩,
      hmoved.trans hmoves⟩
    refine hs.edit hkeeps (by rw [hf]; exact hs.draft) ⟨b, by rw [hf, hb], hT, by simp [hfinished]⟩
      (fun t ht => (hs.fits t ht).mono hle) ?_
    rw [hf]
    exact hs.holds
  · have hkeeps := Builder.Keeps.of_modify hcur hshared hf
    have hends : s.function.Ends A s.current b.instrs.toList t := by
      refine ⟨fun r hr => hs.mem_after hb hopen (ht.reads _ hr), fun c hc => ?_, fun c hc => ?_,
        fun c hc => ?_, fun v hv => absurd hv (ht.stays v)⟩
      · obtain ⟨k, hk, -⟩ := ht.allows c hc
        exact (hs.facts _ hk).1
      · obtain ⟨k, hk, -⟩ := ht.allows c hc
        exact (hs.facts _ hk).2.1
      · obtain ⟨k, hk, hsub⟩ := ht.allows c hc
        rw [show A c = k from (hs.facts _ hk).2.2]
        exact hsub.trans (hhere hopen)
    refine ⟨_, some t, N, hle, ⟨rfl, rfl, rfl⟩, ⟨A, ?_⟩, hmoved.trans hmoves⟩
    refine hs.edit hkeeps (hs.draft.finish hb hf hends)
      ⟨{ b with terminator := some t, finished := true }, ?_, rfl, by simp⟩ ?_ ?_
    · rw [hf, Table.get?_modify, if_pos rfl, hb]
      rfl
    · intro t' ht'
      cases ht'
      exact ht.mono hle
    · rw [hf]
      intro f hf'
      refine (hs.holds f hf').modify _ ((hs.holds f hf').instrs _ b hb) fun u hu => ?_
      cases hu
      exact ht.checking (hs.describes hf')

theorem drafts_terminate (ht : P.Fits κ t) :
    Drafts (At P κ T W O N) (terminate t) (Closed P κ W O N) :=
  Extends.mono (drafts_finish ht) (le_refl κ) fun _ _ _ _ _ h => h.2

theorem drafts_jump (hb : κ.Allows b) : Drafts (At P κ T W O N) (jump b) (Closed P κ W O N) :=
  drafts_terminate (Plan.fits_jump hb)

theorem drafts_createBlock (htag : tag ∈ blockTags) {t : Option Terminator}
    (ht : ∀ t', t = some t' → P.Fits κ t')
    (hfree : ∀ t', t = some t' → t'.operands = [] ∨ T = some t') :
    Drafts (At P κ T W O N) (createBlock tag t)
      fun id => At P (κ.openBlock id) T (⟨id, t, κ.registers⟩ :: W) O N := by
  refine .of_eq ?_ fun s e s' _ h => by cases h
  rintro s id s' ⟨⟨A, hs⟩, hmoved⟩ h
  injection h with hid hs'
  subst hid hs'
  refine ⟨⟨_, hs.openBlock _ _ ht⟩, hmoved.tail (.block s tag t htag fun t' ht' => ?_)⟩
  refine (hfree t' ht').imp_right fun hT => ?_
  obtain ⟨b, hb, hterm, -⟩ := hs.here
  exact ⟨s.current, b, hb, hterm.trans hT⟩

theorem drafts_createBlock_jump (htag : tag ∈ blockTags) (hb : κ.Allows b) :
    Drafts (At P κ T W O N) (createBlock tag (some (.jump b)))
      fun id => At P (κ.openBlock id) T (⟨id, some (.jump b), κ.registers⟩ :: W) O N := by
  refine drafts_createBlock htag (fun t ht => ?_) fun t ht => .inl ?_
  · cases ht
    exact Plan.fits_jump hb
  · cases ht
    rfl

theorem drafts_inherit (htag : tag ∈ blockTags) {k : BlockId → Build α} {post : α → Builder → Prop}
    (hk : ∀ id, Drafts (At P (κ.openBlock id) T (⟨id, T, κ.registers⟩ :: W) O N) (k id) post) :
    Drafts (At P κ T W O N) (do k (← createBlock tag (← inheritedTerminator))) post := by
  intro s hs
  obtain ⟨⟨A, hstage⟩, -⟩ := id hs
  obtain ⟨b, hb, hT, -⟩ := hstage.here
  have heq : (do k (← createBlock tag (← inheritedTerminator))) s =
      (createBlock tag T >>= k) s := by
    have hinherited : inheritedTerminator s = .ok T s := by
      show EStateM.Result.ok ((s.function.blocks.get? s.current).bind Block.terminator) s = _
      rw [hb, ← hT]
      rfl
    simp only [bind, EStateM.bind, hinherited]
  rw [heq]
  exact (drafts_createBlock htag hstage.fits fun _ => .inr).bind hk s hs

theorem drafts_switchTo (hW : W.Perm (w :: W')) (hT : T.isSome) :
    Drafts (At P κ T W O N) (switchTo w.block)
      fun _ => At P (κ.within w.known) w.terminator W' O N := by
  refine .of_eq ?_ fun s e s' _ h => by cases h
  rintro s a s' ⟨⟨A, hs⟩, hmoved⟩ h
  injection h with _ hs'
  subst hs'
  exact ⟨⟨A, hs.enter hW hT⟩, hmoved.tail (.enter s w.block)⟩

theorem Function.isStructural_of_operandType {f : Function} (h : f.operandType o = .error e) :
    e.isStructural = false := by
  cases o with
  | register r =>
    simp only [operandType, registerType, Table.find] at h
    cases hr : f.registers.get? r with
    | none =>
      rw [hr] at h
      cases h
      rfl
    | some info =>
      rw [hr] at h
      cases h
  | _ => cases h

theorem yields_operandType (ho : P.Has κ o ty) :
    Yields P κ T W O N (operandType o) fun _ ty' => ty' = ty ∧ ty.IsFlat := by
  refine .of_eq ?_ ?_
  · rintro s ty' s' hs h
    obtain ⟨rfl, hty'⟩ := operandType_eq_ok h
    obtain ⟨⟨A, hstage⟩, -⟩ := id hs
    obtain rfl := Except.ok.inj ((ho.type _ hstage.types).symm.trans hty')
    exact ⟨κ, T, N, le_refl κ, ⟨rfl, rfl, rfl, (hstage.holds _ (.refl _)).isFlat hty'⟩, hs⟩
  · intro s e s' _ h
    rcases EStateM.bind_eq_error.mp h with hget | ⟨_, _, hget, h⟩
    · cases hget
    obtain ⟨rfl, rfl⟩ := get_eq_ok hget
    exact Function.isStructural_of_operandType (EStateM.ofExcept_eq_error.mp h).1

end

/-! ## Values and places -/

namespace Plan

variable {P : Plan} {κ κ' : Facts} {o : Operand} {ty : Ty} {shape : Ty.Shape}

/-- The operand is a value of the given shape, truth values in either form. -/
def Value (P : Plan) (κ : Facts) (shape : Ty.Shape) (o : Operand) : Prop :=
  ∃ ty, P.Has κ o ty ∧ (P.typed → ty.shape = shape)

/-- The operand is a value of the given shape, truth values in storage form. -/
def Stored (P : Plan) (κ : Facts) (shape : Ty.Shape) (o : Operand) : Prop :=
  ∃ ty, P.Has κ o ty ∧ (P.typed → ty ≠ .cond ∧ ty.shape = shape)

def Passable (P : Plan) (κ : Facts) (o : Operand) : Prop :=
  ∃ ty, P.Has κ o ty ∧ (P.typed → ty ≠ .cond)

def IsCondition (P : Plan) (κ : Facts) (o : Operand) : Prop :=
  ∃ ty, P.Has κ o ty ∧ (P.typed → ty = .cond)

structure Place (P : Plan) (κ : Facts) (shape : Ty.Shape) (address : Operand) (ty : Ty) :
    Prop where
  has : ∃ ty', P.Has κ address ty'
  kept : ty.IsKept
  points : ∀ f, κ.Describes f → f.PointsTo P.vocabulary.globals address ty
  shape : P.typed → ty.shape = shape

theorem Value.mono (h : P.Value κ shape o) (hle : κ ≤ κ') : P.Value κ' shape o := by
  obtain ⟨ty, hty, hshape⟩ := h
  exact ⟨ty, hty.mono hle, hshape⟩

theorem Stored.mono (h : P.Stored κ shape o) (hle : κ ≤ κ') : P.Stored κ' shape o := by
  obtain ⟨ty, hty, hstored⟩ := h
  exact ⟨ty, hty.mono hle, hstored⟩

theorem Passable.mono (h : P.Passable κ o) (hle : κ ≤ κ') : P.Passable κ' o := by
  obtain ⟨ty, hty, hpassable⟩ := h
  exact ⟨ty, hty.mono hle, hpassable⟩

theorem IsCondition.mono (h : P.IsCondition κ o) (hle : κ ≤ κ') : P.IsCondition κ' o := by
  obtain ⟨ty, hty, hcond⟩ := h
  exact ⟨ty, hty.mono hle, hcond⟩

theorem Place.mono (h : P.Place κ shape o ty) (hle : κ ≤ κ') : P.Place κ' shape o ty where
  has := by
    obtain ⟨ty', hty'⟩ := h.has
    exact ⟨ty', hty'.mono hle⟩
  kept := h.kept
  points := fun f hf => h.points f (hf.of_le hle)
  shape := h.shape

theorem Value.congr (h : P.Value κ shape o) (heq : P.typed → shape = shape') :
    P.Value κ shape' o := by
  obtain ⟨ty, hty, hshape⟩ := h
  exact ⟨ty, hty, fun htyped => (hshape htyped).trans (heq htyped)⟩

theorem Place.congr (h : P.Place κ shape o ty) (heq : P.typed → shape = shape') :
    P.Place κ shape' o ty :=
  ⟨h.has, h.kept, h.points, fun htyped => (h.shape htyped).trans (heq htyped)⟩

theorem Has.shaped (h : P.Has κ o ty) : P.Value κ ty.shape o := ⟨ty, h, fun _ => rfl⟩

theorem Has.stored (h : P.Has κ o ty) (hty : ty.IsKept) : P.Stored κ ty.shape o :=
  ⟨ty, h, fun _ => ⟨hty.ne_cond, rfl⟩⟩

theorem Stored.passable (h : P.Stored κ shape o) : P.Passable κ o := by
  obtain ⟨ty, hty, hstored⟩ := h
  exact ⟨ty, hty, fun htyped => (hstored htyped).1⟩

/-- A word is no truth value, so it is in storage form. -/
theorem Value.stored (h : P.Value κ .word o) : P.Stored κ .word o := by
  obtain ⟨ty, hty, hshape⟩ := h
  refine ⟨ty, hty, fun htyped => ⟨fun hcond => ?_, hshape htyped⟩⟩
  rw [hcond] at hshape
  cases hshape htyped

theorem IsCondition.value (h : P.IsCondition κ o) : P.Value κ .truth o := by
  obtain ⟨ty, hty, hcond⟩ := h
  exact ⟨ty, hty, fun htyped => by rw [hcond htyped]; rfl⟩

theorem Computed.place (h : P.Computed κ o ty.pointerTo) (hty : ty.IsKept) :
    P.Place κ ty.shape o ty := by
  obtain ⟨r, rfl, hr⟩ := h
  exact ⟨⟨_, hr⟩, hty, fun f hf => ⟨_, hr.type f hf, hty.pointee_pointerTo⟩, fun _ => rfl⟩

theorem place_of_gives (hty : ty.IsKept) (h : κ.Gives r ty.pointerTo) :
    P.Place κ ty.shape (.register r) ty :=
  Computed.place ⟨r, rfl, has_of_gives h⟩ hty

theorem fits_branch (ho : P.IsCondition κ o) (hb : κ.Allows b) (hc : κ.Allows c) :
    P.Fits κ (.branch o b c) := by
  obtain ⟨ty, hty, hcond⟩ := ho
  refine ⟨by simpa [Terminator.operands] using ⟨ty, hty⟩, fun d hd => ?_, by simp,
    fun htyped f hf => ?_⟩
  · simp only [Terminator.successors] at hd
    split at hd <;> grind
  · obtain rfl := hcond htyped
    exact hty.type f hf

end Plan

section

variable {P : Plan} {κ : Facts} {T : Option Terminator} {W : List Waiting} {O : Surroundings}
  {N : Source.Typing}

open Build Plan

variable {ty ty' : Ty} {value : Operand} {function : String} {arguments : List Operand}

theorem yields_load (h : P.Place κ shape address ty) :
    Yields P κ T W O N (load address ty) fun κ' o => P.Has κ' o ty := by
  refine .mono (yields_definePlain h.kept.flat (fun _ => trivial) (fun _ => rfl) fun d => ?_)
    fun _ _ _ ho => ho.has
  have h := h.mono (κ.le_assume d ty)
  exact {
    reads := by simpa [Instr.operands] using h.has
    writes := by simp [Instr.destination?, Facts.assume]
    plain := rfl
    refers := trivial
    reaches := fun f hf => ⟨ty, h.kept, h.points f hf, hf d ty (Set.mem_insert _ _)⟩
    explicit := fun _ f hf => ⟨ty, h.points f hf, hf d ty (Set.mem_insert _ _)⟩ }

theorem yields_store (hvalue : P.Stored κ shape value) (haddr : P.Place κ shape address ty) :
    Yields P κ T W O N (store value address) fun _ _ => True := by
  obtain ⟨stored, hstored, hform⟩ := hvalue
  have hstore : P.Accepts κ (.store value address) := {
    reads := by simpa [Instr.operands] using ⟨⟨stored, hstored⟩, haddr.has⟩
    writes := by simp [Instr.destination?]
    plain := rfl
    refers := trivial
    reaches := fun f hf => ⟨ty, haddr.kept, haddr.points f hf⟩
    explicit := fun htyped f hf => ⟨stored, ty, hstored.type f hf, (hform htyped).1,
      haddr.points f hf,
      Ty.size_eq_of_shape_eq ((hform htyped).2.trans (haddr.shape htyped).symm)⟩ }
  exact yields_emit hstore rfl fun _ => .plain _ trivial fun _ ho => hstore.known ho

theorem yields_arith (op : ArithOp) (hlhs : P.Has κ lhs ty) (hrhs : P.Has κ rhs ty') :
    Yields P κ T W O N (arith op lhs rhs) fun κ' o => P.Has κ' o ty := by
  refine .bind (yields_operandType hlhs) fun found κ1 h1 hfound => ?_
  obtain ⟨rfl, hflat⟩ := hfound
  refine .mono (yields_definePlain hflat (fun _ => trivial) (fun _ => rfl) fun d => ?_)
    fun _ _ _ ho => ho.has
  have hle := h1.trans (κ1.le_assume d found)
  exact {
    reads := by simpa [Instr.operands] using ⟨⟨_, hlhs.mono hle⟩, _, hrhs.mono hle⟩
    writes := by simp [Instr.destination?, Facts.assume]
    plain := rfl
    refers := trivial
    explicit := fun _ _ _ => trivial }

theorem yields_compare (condition : Condition) (hlhs : P.Has κ lhs ty) (hrhs : P.Has κ rhs ty') :
    Yields P κ T W O N (compare condition lhs rhs) fun κ' o => P.Has κ' o .cond := by
  refine .mono (yields_definePlain (.inl rfl) (fun _ => trivial) (fun _ => rfl) fun d => ?_)
    fun _ _ _ ho => ho.has
  have hle := κ.le_assume d .cond
  exact {
    reads := by simpa [Instr.operands] using ⟨⟨_, hlhs.mono hle⟩, _, hrhs.mono hle⟩
    writes := by simp [Instr.destination?, Facts.assume]
    plain := rfl
    refers := trivial
    explicit := fun _ _ _ => trivial }

theorem Plan.Has.accepts_bitCast (h : P.Has κ value ty') (d : RegisterId) :
    P.Accepts (κ.assume d ty) (.bitCast d value) where
  reads := by simpa [Instr.operands] using ⟨_, h.mono (κ.le_assume d ty)⟩
  writes := by simp [Instr.destination?, Facts.assume]
  plain := rfl
  refers := trivial
  explicit := fun _ _ _ => trivial

/-- Only a creation takes memory for an object. -/
theorem yields_bitCast (h : P.Has κ value ty') (hty : ty.IsFlat)
    (hobject : ∀ name, ty ≠ .object name) :
    Yields P κ T W O N (bitCast value ty) fun κ' o => P.Computed κ' o ty :=
  yields_define hty (fun _ => rfl) h.accepts_bitCast fun d _ hd =>
    .cast d value _ hd hobject h.known

theorem yields_elementAddress (hbase : P.Has κ base ty) (hindex : P.Has κ index ty')
    (helem : element.IsKept) :
    Yields P κ T W O N (elementAddress base element index)
      fun κ' o => P.Place κ' element.shape o element := by
  refine .mono (yields_definePlain helem.pointerTo.flat (fun _ => trivial) (fun _ => rfl)
    fun d => ?_) fun _ _ _ ho => ho.place helem
  have hle := κ.le_assume d element.pointerTo
  exact {
    reads := by simpa [Instr.operands] using ⟨⟨_, hbase.mono hle⟩, _, hindex.mono hle⟩
    writes := by simp [Instr.destination?, Facts.assume]
    plain := rfl
    refers := helem
    explicit := fun _ _ _ => trivial }

theorem accepts_call (hdest : ∀ d, destination = some d → ∃ ty, (d, ty) ∈ κ.types)
    (hargs : ∀ o ∈ arguments, P.Passable κ o) :
    P.Accepts κ (.call destination function arguments) where
  reads := by
    intro o ho
    obtain ⟨ty, hty, -⟩ := hargs o ho
    exact ⟨ty, hty⟩
  writes := hdest
  plain := by cases destination <;> rfl
  refers := trivial
  explicit := by
    intro htyped f hf o ho
    obtain ⟨ty, hty, hform⟩ := hargs o ho
    exact ⟨ty, hty.type f hf, hform htyped⟩

theorem Plan.Passable.known (h : P.Passable κ o) : o.Known P.vocabulary κ.strings := by
  obtain ⟨ty, hty, -⟩ := h
  exact hty.known

theorem accepts_callValue (hargs : ∀ o ∈ arguments, P.Passable κ o) (d : RegisterId) :
    P.Accepts (κ.assume d ty) (.call (some d) function arguments) := by
  refine accepts_call (fun r hr => ⟨ty, ?_⟩) fun o ho => (hargs o ho).mono (κ.le_assume d ty)
  rw [← Option.some.inj hr]
  exact Set.mem_insert _ _

section

variable (hcalls : P.vocabulary.calls function) (hargs : ∀ o ∈ arguments, P.Passable κ o)
include hcalls hargs

theorem yields_callValue (hty : ty.IsFlat) :
    Yields P κ T W O N (callValue function arguments ty) fun κ' o => P.Has κ' o ty :=
  (yields_define hty (fun _ => rfl) (accepts_callValue hargs) fun d _ _ =>
    .call (some d) function arguments hcalls fun o ho => (hargs o ho).known).mono
    fun _ _ _ ho => ho.has

theorem yields_callVoid : Yields P κ T W O N (callVoid function arguments) fun _ _ => True :=
  yields_emit (accepts_call (by simp) hargs) rfl fun _ =>
    .call none function arguments hcalls fun o ho => (hargs o ho).known

end

theorem yields_asCondition (h : P.Value κ .truth value) :
    Yields P κ T W O N (asCondition value) fun κ' o => P.IsCondition κ' o := by
  unfold asCondition
  split
  · exact .pure ⟨.cond, P.has_constant κ _, fun _ => rfl⟩
  · obtain ⟨ty, hty, hshape⟩ := h
    refine .bind (yields_operandType hty) fun found κ1 h1 hfound => ?_
    obtain ⟨rfl, -⟩ := hfound
    have hty := hty.mono h1
    split
    · rename_i hbool
      subst hbool
      refine .mono (yields_definePlain (.inl rfl) (fun _ => trivial) (fun _ => rfl) fun d => ?_)
        fun _ _ _ ho => ⟨.cond, ho.has, fun _ => rfl⟩
      have hty := hty.mono (κ1.le_assume d .cond)
      exact {
        reads := by simpa [Instr.operands] using ⟨_, hty⟩
        writes := by simp [Instr.destination?, Facts.assume]
        plain := rfl
        refers := trivial
        explicit := fun _ f hf => ⟨hty.type f hf, hf d .cond (Set.mem_insert _ _)⟩ }
    · rename_i hne
      refine .pure ⟨found, hty, fun htyped => ?_⟩
      cases found <;> first | rfl | exact absurd rfl hne | cases hshape htyped

theorem yields_asStorage (h : P.Value κ shape value) :
    Yields P κ T W O N (asStorage value) fun κ' o => P.Stored κ' shape o := by
  unfold asStorage
  obtain ⟨ty, hty, hshape⟩ := h
  split
  · rename_i b
    refine .of_eq (fun s a s' hs h => ?_) fun _ _ _ _ h => by cases h
    obtain ⟨rfl, rfl⟩ := EStateM.pure_eq_ok.mp h
    obtain ⟨⟨A, hstage⟩, -⟩ := id hs
    obtain rfl : Ty.cond = ty := Except.ok.inj (hty.type _ hstage.types)
    exact ⟨κ, T, N, le_refl κ, ⟨rfl, rfl, .bool, P.has_constant κ _,
      fun htyped => ⟨by simp, hshape htyped⟩⟩, hs⟩
  · refine .bind (yields_operandType hty) fun found κ1 h1 hfound => ?_
    obtain ⟨rfl, -⟩ := hfound
    have hty := hty.mono h1
    split
    · rename_i hcond
      subst hcond
      refine .mono (yields_definePlain (.inr trivial) (fun _ => trivial) (fun _ => rfl)
        fun d => ?_) fun _ _ _ ho => ⟨.bool, ho.has, fun htyped => ⟨by simp, hshape htyped⟩⟩
      have hty := hty.mono (κ1.le_assume d .bool)
      exact {
        reads := by simpa [Instr.operands] using ⟨_, hty⟩
        writes := by simp [Instr.destination?, Facts.assume]
        plain := rfl
        refers := trivial
        explicit := fun _ f hf => ⟨hty.type f hf, hf d .bool (Set.mem_insert _ _)⟩ }
    · rename_i hne
      exact .pure ⟨found, hty, fun htyped => ⟨hne, hshape htyped⟩⟩

end

end MxStar.Flow
