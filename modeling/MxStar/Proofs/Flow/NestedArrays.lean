import MxStar.Proofs.Flow.HeapRuns

/-!
# Arrays of arrays

An array of arrays is a tree of blocks of memory.  Each block starts with the number of
its elements, and on all levels but the last the elements are the addresses of arrays one
level down (`Shaped`).  When no two of the blocks overlap, different indices lead to
different arrays (`Shaped.descend_inj`).

The code that builds such an array runs on a `Host` that serves memory.  What it has done is
kept in a `Ledger`: the blocks it was given, in order, and that it touched nothing but these
blocks and its own stack cells.  The loop that fills an array adds the blocks of one element
in each round.
-/

namespace MxStar.Flow

open Build Site

/-! ## Blocks of memory -/

/-- Bytes in a row. -/
structure Chunk where
  start : Word
  bytes : Word

def Chunk.Has (c : Chunk) (b : Word) : Prop :=
  ∃ k < c.bytes.toNat, b = c.start + BitVec.ofNat 32 k

def Chunk.Apart (c d : Chunk) : Prop :=
  ∀ b, c.Has b → ¬ d.Has b

theorem not_covers_of_offsets (ho : o + 4 ≤ o' ∨ o' + 4 ≤ o) (hlt : o + 4 < 2 ^ 32)
    (hlt' : o' + 4 < 2 ^ 32) (hb : Machine.Width.word.Covers (a + BitVec.ofNat 32 o) b) :
    ¬ Machine.Width.word.Covers (a + BitVec.ofNat 32 o') b := by
  intro hb'
  simp only [Machine.Width.Covers] at hb hb'
  rcases hb with rfl | rfl | rfl | rfl <;> rcases hb' with h | h | h | h <;> bv_omega

/-! ## Levels -/

/-- The arrays at one depth: how many elements each of them has, and how large these are. -/
structure Level where
  count : Nat
  size : Nat

def Level.bytes (l : Level) : Nat :=
  l.count * l.size + wordSize

/-- The block of an array: the value of an array is the address behind the count. -/
def Level.chunk (l : Level) (a : Word) : Chunk :=
  ⟨a - 4, BitVec.ofNat 32 l.bytes⟩

theorem Level.toNat_bytes {l : Level} (h : l.bytes < 2 ^ 31) :
    (BitVec.ofNat 32 l.bytes).toNat = l.bytes := by
  rw [BitVec.toNat_ofNat, Nat.mod_eq_of_lt (by omega)]

theorem Level.chunk_has {l : Level} (hfits : l.bytes < 2 ^ 31) {a a' : Word} (ho : o + 4 ≤ l.bytes)
    (ha : a' = a - 4 + BitVec.ofNat 32 o) (hb : Machine.Width.word.Covers a' b) :
    (l.chunk a).Has b := by
  have hstep : ∀ k < 4, (l.chunk a).Has (a' + BitVec.ofNat 32 k) := by
    intro k hk
    refine ⟨o + k, ?_, ?_⟩
    · rw [chunk, toNat_bytes hfits]
      omega
    · rw [ha, BitVec.ofNat_add, BitVec.add_assoc, chunk]
  rcases hb with rfl | rfl | rfl | rfl
  · simpa using hstep 0 (by omega)
  · exact hstep 1 (by omega)
  · exact hstep 2 (by omega)
  · exact hstep 3 (by omega)

theorem Level.chunk_has_count {l : Level} (hfits : l.bytes < 2 ^ 31) {a : Word}
    (hb : Machine.Width.word.Covers (a - 4) b) : (l.chunk a).Has b :=
  chunk_has (o := 0) hfits (by rw [bytes, wordSize]; omega) (by simp) hb

/-- The levels of an array of the given type, as far as there are counts. -/
def levelsOf (ty : Source.Ty) : List Nat → List Level
  | [] => []
  | n :: rest =>
    let element := { ty with dimensions := ty.dimensions - 1 }
    ⟨n, (Ty.ofSource element).size⟩ :: levelsOf element rest

/-- Arrays fit the address space, and hold addresses on all levels but the last. -/
def Nests : List Level → Prop
  | [] => True
  | l :: rest => l.bytes < 2 ^ 31 ∧ (rest ≠ [] → l.size = wordSize) ∧ Nests rest

def totalBytes : List Level → Nat
  | [] => 0
  | l :: rest => l.bytes + l.count * totalBytes rest

theorem Ty.pointers_succ (n : Nat) (ty : Ty) : pointers (n + 1) ty = (pointers n ty).pointerTo := by
  induction n generalizing ty with
  | zero => rfl
  | succ n ih => exact ih ty.pointerTo

theorem Ty.pointee?_ofSource (h : 0 < ty.dimensions) :
    (ofSource ty).pointee? = some (ofSource { ty with dimensions := ty.dimensions - 1 }) := by
  obtain ⟨n, hn⟩ := Nat.exists_eq_add_of_lt h
  rw [Nat.zero_add] at hn
  have hhollow : (pointers n (ofBase ty.base)).isHollow = false := by
    cases n with
    | zero => cases ty.base <;> rfl
    | succ n => rw [pointers_succ, isHollow_pointerTo]
  simp only [ofSource, hn, Nat.add_sub_cancel, pointers_succ, pointee?_pointerTo hhollow]

theorem Ty.size_of_pointee? {ty : Ty} (h : ty.pointee? = some element) :
    ty.isHollow = false ∧ ty.size = wordSize := by
  cases ty with
  | pointer base depth =>
    cases depth with
    | zero => simp [pointee?] at h
    | succ depth => exact ⟨rfl, rfl⟩
  | _ => simp [pointee?] at h

theorem nests_levelsOf (hle : counts.length ≤ ty.dimensions)
    (hfits : ∀ l ∈ levelsOf ty counts, l.bytes < 2 ^ 31) : Nests (levelsOf ty counts) := by
  induction counts generalizing ty with
  | nil => trivial
  | cons n rest ih =>
    rw [List.length_cons] at hle
    refine ⟨hfits _ (.head _), fun hne => ?_, ih (by simp only; omega) fun l hl =>
      hfits l (.tail _ hl)⟩
    cases rest with
    | nil => exact absurd rfl hne
    | cons m rest =>
      rw [List.length_cons] at hle
      exact (Ty.size_of_pointee? (Ty.pointee?_ofSource (by simp only; omega))).2

/-! ## Trees of blocks -/

/-- An array of the given levels stands at an address and is made of the given blocks. -/
def Shaped (m : Memory) : List Level → Word → List Chunk → Prop
  | [], _, chunks => chunks = []
  | l :: rest, a, chunks =>
    m.read .word (a - 4) = BitVec.ofNat 32 l.count ∧ ∃ parts : List (List Chunk),
      chunks = l.chunk a :: parts.flatten ∧ parts.length = l.count ∧
        ∀ i part, parts[i]? = some part →
          Shaped m rest (m.read .word (a + BitVec.ofNat 32 (4 * i))) part

/-- The array that indices lead to. -/
def descend (m : Memory) (a : Word) : List Nat → Word
  | [] => a
  | i :: rest => descend m (m.read .word (a + BitVec.ofNat 32 (4 * i))) rest

/-- Indices of an array that is part of an array of these levels, or the whole one. -/
def Selects (levels : List Level) (indices : List Nat) : Prop :=
  indices.length < levels.length ∧
    List.Forall₂ (fun i l => i < l.count) indices (levels.take indices.length)

namespace Shaped

variable {m : Memory} {levels : List Level} {a : Word} {chunks : List Chunk}

theorem offset_eq (a : Word) (i : Nat) :
    a + BitVec.ofNat 32 (4 * i) = a - 4 + BitVec.ofNat 32 (4 + 4 * i) := by
  rw [BitVec.ofNat_add]
  bv_omega

theorem congr (hnests : Nests levels) (hm : ∀ c ∈ chunks, ∀ b, c.Has b → m' b = m b)
    (h : Shaped m levels a chunks) : Shaped m' levels a chunks := by
  induction levels generalizing a chunks with
  | nil => exact h
  | cons l rest ih =>
    obtain ⟨hfits, hword, hrest⟩ := hnests
    obtain ⟨hcount, parts, rfl, hlen, hparts⟩ := h
    have hread : ∀ a' o, o + 4 ≤ l.bytes → a' = a - 4 + BitVec.ofNat 32 o →
        m'.read .word a' = m.read .word a' := by
      intro a' o ho ha'
      exact Memory.read_congr fun b hb =>
        hm _ (.head _) b (Level.chunk_has hfits ho ha' hb)
    refine ⟨?_, parts, rfl, hlen, fun i part hpart => ?_⟩
    · rw [hread (a - 4) 0 (Nat.le_add_left _ _) (by simp), hcount]
    · have hi := (List.getElem?_eq_some_iff.mp hpart).1
      have hpartsM := hparts i part hpart
      by_cases hnil : rest = []
      · rw [hnil] at hpartsM ⊢
        exact hpartsM
      · rw [hread _ (4 + 4 * i) ?_ (offset_eq a i)]
        · refine ih hrest (fun c hc => hm c (.tail _ ?_)) hpartsM
          exact List.mem_flatten.mpr ⟨part, List.mem_of_getElem? hpart, hc⟩
        · rw [Level.bytes, hword hnil, wordSize]
          omega

theorem length_eq (h : Shaped m levels a chunks) :
    chunks.length = ∑ j ∈ Finset.range levels.length, ((levels.take j).map Level.count).prod := by
  induction levels generalizing a chunks with
  | nil => simp [show chunks = [] from h]
  | cons l rest ih =>
    obtain ⟨-, parts, rfl, hlen, hparts⟩ := h
    have heach : ∀ k ∈ parts.map List.length,
        k = ∑ j ∈ Finset.range rest.length, ((rest.take j).map Level.count).prod := by
      intro k hk
      obtain ⟨part, hpart, rfl⟩ := List.mem_map.mp hk
      obtain ⟨i, hi⟩ := List.mem_iff_getElem?.mp hpart
      exact ih (hparts i part hi)
    rw [List.length_cons, List.length_flatten, List.eq_replicate_of_mem heach, List.sum_replicate,
      List.length_map, hlen, List.length_cons, Finset.sum_range_succ']
    simp [Finset.mul_sum]

theorem descend (h : Shaped m levels a chunks) (hindices : Selects levels indices) :
    ∃ l, levels[indices.length]? = some l ∧
      m.read .word (descend m a indices - 4) = BitVec.ofNat 32 l.count ∧
      l.chunk (descend m a indices) ∈ chunks := by
  obtain ⟨hlt, hall⟩ := hindices
  induction indices generalizing levels a chunks with
  | nil =>
    cases levels with
    | nil => simp at hlt
    | cons l rest =>
      obtain ⟨hcount, parts, rfl, -⟩ := h
      exact ⟨l, rfl, hcount, .head _⟩
  | cons i indices ih =>
    cases levels with
    | nil => simp at hlt
    | cons l rest =>
      obtain ⟨-, parts, rfl, hlen, hparts⟩ := h
      cases hall with
      | cons hi hall =>
        rw [← hlen] at hi
        have hpart := List.getElem?_eq_getElem hi
        obtain ⟨l', hl', hread, hmem⟩ := ih (hparts i _ hpart) (Nat.lt_of_succ_lt_succ hlt) hall
        exact ⟨l', hl', hread, .tail _ (List.mem_flatten.mpr ⟨_, List.mem_of_getElem? hpart, hmem⟩)⟩

theorem descend_cons {l : Level} {rest : List Level} {parts : List (List Chunk)} {i : Nat}
    {indices : List Nat} (hlen : parts.length = l.count)
    (hparts : ∀ i part, parts[i]? = some part →
      Shaped m rest (m.read .word (a + BitVec.ofNat 32 (4 * i))) part)
    (hindices : Selects (l :: rest) (i :: indices)) :
    Selects rest indices ∧ ∃ part, parts[i]? = some part ∧
      Flow.descend m a (i :: indices) - 4 ∈ part.map Chunk.start := by
  obtain ⟨hlt, hall⟩ := hindices
  cases hall with
  | cons hi hall =>
    rw [← hlen] at hi
    have hpart := List.getElem?_eq_getElem hi
    have hselects : Selects rest indices := ⟨Nat.lt_of_succ_lt_succ hlt, hall⟩
    obtain ⟨l', -, -, hmem⟩ := (hparts i _ hpart).descend hselects
    exact ⟨hselects, _, hpart, List.mem_map_of_mem hmem⟩

theorem descend_inj {indices indices' : List Nat} (h : Shaped m levels a chunks)
    (hstarts : (chunks.map Chunk.start).Nodup) (hindices : Selects levels indices)
    (hindices' : Selects levels indices')
    (heq : Flow.descend m a indices = Flow.descend m a indices') : indices = indices' := by
  induction indices generalizing indices' levels a chunks with
  | nil =>
    cases indices' with
    | nil => rfl
    | cons i' indices' =>
      obtain ⟨l, rest, rfl⟩ := List.exists_cons_of_length_pos (Nat.zero_lt_of_lt hindices.1)
      obtain ⟨-, parts, rfl, hlen, hparts⟩ := h
      obtain ⟨-, part, hpart, hmem⟩ := descend_cons hlen hparts hindices'
      rw [← heq] at hmem
      refine absurd ?_ (List.nodup_cons.mp hstarts).1
      rw [List.map_flatten]
      exact List.mem_flatten_of_mem (List.mem_map_of_mem (List.mem_of_getElem? hpart)) hmem
  | cons i indices ih =>
    obtain ⟨l, rest, rfl⟩ := List.exists_cons_of_length_pos (Nat.zero_lt_of_lt hindices.1)
    obtain ⟨-, parts, rfl, hlen, hparts⟩ := h
    obtain ⟨hselects, part, hpart, hmem⟩ := descend_cons hlen hparts hindices
    obtain ⟨hhead, htail⟩ := List.nodup_cons.mp hstarts
    rw [List.map_flatten] at hhead htail
    obtain ⟨heach, hpairs⟩ := List.nodup_flatten.mp htail
    cases indices' with
    | nil =>
      rw [heq] at hmem
      exact absurd (List.mem_flatten_of_mem
        (List.mem_map_of_mem (List.mem_of_getElem? hpart)) hmem) hhead
    | cons i' indices' =>
      obtain ⟨hselects', part', hpart', hmem'⟩ := descend_cons hlen hparts hindices'
      rw [← heq] at hmem'
      have hdisj : ∀ {j j' : Nat} {p p' : List Chunk} {w : Word}, j < j' → parts[j]? = some p →
          parts[j']? = some p' → w ∈ p.map Chunk.start → w ∉ p'.map Chunk.start := by
        intro j j' p p' w hlt hp hp' hw hw'
        obtain ⟨hj, rfl⟩ := List.getElem?_eq_some_iff.mp hp
        obtain ⟨hj', rfl⟩ := List.getElem?_eq_some_iff.mp hp'
        have hpair := List.pairwise_iff_getElem.mp hpairs j j' (by simpa using hj)
          (by simpa using hj') hlt
        simp only [List.getElem_map] at hpair
        exact hpair hw hw'
      rcases Nat.lt_trichotomy i i' with hlt | rfl | hlt
      · exact absurd hmem' (hdisj hlt hpart hpart' hmem)
      · obtain rfl := Option.mem_unique hpart hpart'
        rw [ih (hparts i part hpart) (heach _ (List.mem_map_of_mem (List.mem_of_getElem? hpart)))
          hselects hselects' heq]
      · exact absurd hmem (hdisj hlt hpart' hpart hmem')

end Shaped

/-! ## Blocks that were handed out -/

section

variable {World : Type}

/-- A body in surroundings that hand out memory.  They know which bytes are in use, and how many
more they can hand out. -/
structure Host (World : Type) extends Site World where
  used : World → Word → Prop
  free : World → Nat
  /-- As long as enough memory is free, a request is answered by a block of bytes that were not
  in use.  What is in use stays as it is. -/
  serves : ∀ world bytes m, bytes.toNat ≤ free world → ∃ world' m' a,
    environment.call world Linkage.allocate [bytes] m = some (world', m', a) ∧
      free world ≤ free world' + bytes.toNat ∧ (∀ b, used world b → used world' b ∧ m' b = m b) ∧
      ∀ b, (Chunk.mk a bytes).Has b → ¬ used world b ∧ used world' b
  /-- No two stack cells overlap -/
  apart : ∀ (n m : Nat) c d, function.cells[n]? = some c → function.cells[m]? = some d → n ≠ m →
    ∀ b, c.ty.width.Covers (environment.cell n) b → ¬ d.ty.width.Covers (environment.cell m) b

/-- The bytes of an access. -/
def Action.Touches : Action → Word → Prop
  | .load width a, b | .store width a _, b => width.Covers a b
  | .call _ _, _ => False

/-- What ends a round of filling an array: the item is stored, and the counter goes on. -/
def Past.advance (p : Past World) (cell place item next : Word) : Past World :=
  ((p.load cell).store place item).store cell next

namespace Host

def CellsUsed (X : Host World) (world : World) : Prop :=
  ∀ b, X.function.InCell X.environment b → X.used world b

/-- A byte of one of the stack cells of the body from number `low` on. -/
def InOwn (X : Host World) (low : Nat) (b : Word) : Prop :=
  ∃ (n : Nat) (c : Cell), low ≤ n ∧ X.body.cells[n]? = some c ∧
    c.ty.width.Covers (X.environment.cell n) b

/-- What happened between two pasts: the given blocks were handed out one after the other, and
nothing was touched but these and own stack cells. -/
structure Ledger (X : Host World) (low : Nat) (c p : Past World) (spent : Nat)
    (chunks : List Chunk) : Prop where
  used : ∀ b, X.used c.world b → X.used p.world b
  kept : ∀ b, X.used c.world b → ¬ X.InOwn low b → p.memory b = c.memory b
  fresh : ∀ k ∈ chunks, ∀ b, k.Has b → ¬ X.used c.world b ∧ X.used p.world b
  whole : ∀ k ∈ chunks, k.Has k.start
  apart : chunks.Pairwise Chunk.Apart
  free : X.free c.world ≤ X.free p.world + spent
  trace : ∃ actions, p.trace = actions ++ c.trace ∧
    actions.reverse.filterMap Action.call? = chunks.map (fun k => (Linkage.allocate, [k.bytes])) ∧
    ∀ action ∈ actions, ∀ b, action.Touches b → X.InOwn low b ∨ ∃ k ∈ chunks, k.Has b

variable {X : Host World} {low low' : Nat} {c p q : Past World} {spent : Nat} {chunks : List Chunk}

namespace Ledger

theorem trans (hlow : low ≤ low') (h : X.Ledger low c p spent chunks)
    (h' : X.Ledger low' p q spent' chunks') :
    X.Ledger low c q (spent + spent') (chunks ++ chunks') := by
  have hown : ∀ b, X.InOwn low' b → X.InOwn low b :=
    fun b ⟨n, d, hn, hd, hb⟩ => ⟨n, d, hlow.trans hn, hd, hb⟩
  refine ⟨fun b hb => h'.used b (h.used b hb), fun b hb hout => ?_, ?_, ?_, ?_, ?_, ?_⟩
  · rw [h'.kept b (h.used b hb) (mt (hown b) hout), h.kept b hb hout]
  · intro k hk b hb
    rcases List.mem_append.mp hk with hk | hk
    · exact ⟨(h.fresh k hk b hb).1, h'.used b (h.fresh k hk b hb).2⟩
    · exact ⟨mt (h.used b) (h'.fresh k hk b hb).1, (h'.fresh k hk b hb).2⟩
  · intro k hk
    rcases List.mem_append.mp hk with hk | hk
    · exact h.whole k hk
    · exact h'.whole k hk
  · refine List.pairwise_append.mpr ⟨h.apart, h'.apart, fun k hk k' hk' b hb hb' => ?_⟩
    exact (h'.fresh k' hk' b hb').1 (h.fresh k hk b hb).2
  · have hfree := h.free
    have hfree' := h'.free
    omega
  · obtain ⟨actions, htrace, hcalls, htouches⟩ := h.trace
    obtain ⟨actions', htrace', hcalls', htouches'⟩ := h'.trace
    refine ⟨actions' ++ actions, by rw [htrace', htrace, List.append_assoc], ?_, ?_⟩
    · rw [List.reverse_append, List.filterMap_append, hcalls, hcalls', List.map_append]
    · intro action haction b hb
      rcases List.mem_append.mp haction with haction | haction
      · rcases htouches' action haction b hb with hb | ⟨k, hk, hb⟩
        · exact .inl (hown b hb)
        · exact .inr ⟨k, List.mem_append_right _ hk, hb⟩
      · rcases htouches action haction b hb with hb | ⟨k, hk, hb⟩
        · exact .inl hb
        · exact .inr ⟨k, List.mem_append_left _ hk, hb⟩

theorem note (h : X.Ledger low c p spent chunks) (hcall : action.call? = none)
    (htouches : ∀ b, action.Touches b → X.InOwn low b ∨ ∃ k ∈ chunks, k.Has b)
    (hm : ∀ b, ¬ action.Touches b → m b = p.memory b) :
    X.Ledger low c ⟨m, p.world, action :: p.trace⟩ spent chunks := by
  obtain ⟨actions, htrace, hcalls, htouched⟩ := h.trace
  refine { h with
    kept := fun b hb hout => ?_
    trace := ⟨action :: actions, by rw [htrace]; rfl, ?_, ?_⟩ }
  · refine (hm b fun hb' => ?_).trans (h.kept b hb hout)
    rcases htouches b hb' with hown | ⟨k, hk, hhas⟩
    · exact hout hown
    · exact (h.fresh k hk b hhas).1 hb
  · simp [hcalls, hcall]
  · intro other hother
    rcases List.mem_cons.mp hother with rfl | hother
    · exact htouches
    · exact htouched other hother

variable {a : Word}

theorem load (h : X.Ledger low c p spent chunks)
    (ha : ∀ b, Machine.Width.word.Covers a b → X.InOwn low b ∨ ∃ k ∈ chunks, k.Has b) :
    X.Ledger low c (p.load a) spent chunks :=
  h.note rfl ha fun _ _ => rfl

theorem store (h : X.Ledger low c p spent chunks) (w : Word)
    (ha : ∀ b, Machine.Width.word.Covers a b → X.InOwn low b ∨ ∃ k ∈ chunks, k.Has b) :
    X.Ledger low c (p.store a w) spent chunks :=
  h.note rfl ha fun _ hb => Memory.write_of_not_covers hb

theorem exists_of_serves {bytes : Word} (hpos : 0 < bytes.toNat)
    (hfree : bytes.toNat ≤ X.free c.world) :
    ∃ world m a, X.environment.call c.world Linkage.allocate [bytes] c.memory = some (world, m, a) ∧
      X.Ledger low c ⟨m, world, .call Linkage.allocate [bytes] :: c.trace⟩ bytes.toNat
        [⟨a, bytes⟩] := by
  obtain ⟨world, m, a, hcall, hfree', hkept, hfresh⟩ := X.serves c.world bytes c.memory hfree
  refine ⟨world, m, a, hcall, fun b hb => (hkept b hb).1, fun b hb _ => (hkept b hb).2, ?_, ?_,
    List.pairwise_singleton _ _, hfree', [_], rfl, rfl, ?_⟩
  · intro k hk
    obtain rfl := List.mem_singleton.mp hk
    exact hfresh
  · intro k hk
    obtain rfl := List.mem_singleton.mp hk
    exact ⟨0, hpos, by simp⟩
  · intro action haction b hb
    obtain rfl := List.mem_singleton.mp haction
    exact hb.elim

theorem starts_nodup (h : X.Ledger low c p spent chunks) : (chunks.map Chunk.start).Nodup := by
  refine List.pairwise_map.mpr (h.apart.imp_of_mem fun hk hk' hapart heq => ?_)
  exact hapart _ (h.whole _ hk) (heq ▸ h.whole _ hk')

end Ledger

/-! ## Filling an array -/

/-- An array is filled up to an element, and a cell holds the number of that element. -/
structure Filled (X : Host World) (low : Nat) (c : Past World) (l : Level) (rest : List Level)
    (a cell : Word) (i : Nat) (parts : List (List Chunk)) (p : Past World) : Prop where
  length : parts.length = i
  ledger : X.Ledger low c p (l.bytes + i * totalBytes rest)
    (l.chunk a :: parts.flatten)
  count : p.memory.read .word (a - 4) = BitVec.ofNat 32 l.count
  counter : p.memory.read .word cell = BitVec.ofNat 32 i
  elements : ∀ j part, parts[j]? = some part →
    Shaped p.memory rest (p.memory.read .word (a + BitVec.ofNat 32 (4 * j))) part

namespace Filled

variable {p1 : Past World} {l : Level} {rest : List Level} {a : Word} {i n : Nat} {r : RegisterId}
  {parts : List (List Chunk)} {part : List Chunk} {item : Word}

variable (hused : X.CellsUsed c.world) (hn : X.body.cells[n]? = some { register := r, ty := .int })
include hused hn

theorem kept (h : X.Filled low c l rest a (X.environment.cell n) i parts p)
    (hinner : X.Ledger (n + 1) p p1 (totalBytes rest) part)
    (hb : Machine.Width.word.Covers (X.environment.cell n) b ∨
      ∃ k ∈ l.chunk a :: parts.flatten, k.Has b) :
    p1.memory b = p.memory b := by
  rcases hb with hb | ⟨k, hk, hb⟩
  · refine hinner.kept b (h.ledger.used b (hused b ⟨n, _, X.grows.cells _ _ hn, hb⟩)) ?_
    rintro ⟨n', d, hlt, hd, hb'⟩
    exact X.apart n n' _ d (X.grows.cells _ _ hn) (X.grows.cells _ _ hd) (by omega) b hb hb'
  · obtain ⟨hnew, hold⟩ := h.ledger.fresh k hk b hb
    refine hinner.kept b hold ?_
    rintro ⟨n', d, -, hd, hb'⟩
    exact hnew (hused b ⟨n', d, X.grows.cells _ _ hd, hb'⟩)

/-- **One round of the loop.**  The blocks of the new element join those of the others. -/
theorem round (hlow : low ≤ n) (hnests : Nests (l :: rest)) (hsize : l.size = wordSize)
    (hi : i < l.count) (h : X.Filled low c l rest a (X.environment.cell n) i parts p)
    (hinner : X.Ledger (n + 1) p p1 (totalBytes rest) part)
    (hshaped : Shaped p1.memory rest item part) {q : Past World}
    (hq : q = p1.advance (X.environment.cell n) (a + BitVec.ofNat 32 (4 * i)) item
      (BitVec.ofNat 32 (i + 1))) :
    X.Filled low c l rest a (X.environment.cell n) (i + 1) (parts ++ [part]) q := by
  obtain ⟨hfits, -, hrest⟩ := hnests
  have hbytes : l.bytes = l.count * 4 + 4 := by rw [Level.bytes, hsize, wordSize]
  have hledger := h.ledger.trans (hlow.trans (Nat.le_succ n)) hinner
  have hplace : ∀ b, Machine.Width.word.Covers (a + BitVec.ofNat 32 (4 * i)) b →
      (l.chunk a).Has b :=
    fun b => Level.chunk_has hfits (by omega) (Shaped.offset_eq a i)
  have hnoCell : ∀ k ∈ l.chunk a :: parts.flatten ++ part, ∀ b, k.Has b →
      ¬ Machine.Width.word.Covers (X.environment.cell n) b :=
    fun k hk b hb hcell => (hledger.fresh k hk b hb).1 (hused b ⟨n, _, X.grows.cells _ _ hn, hcell⟩)
  have hwrites : ∀ k ∈ l.chunk a :: parts.flatten ++ part, ∀ b, k.Has b →
      ¬ Machine.Width.word.Covers (a + BitVec.ofNat 32 (4 * i)) b →
      q.memory b = p1.memory b := by
    intro k hk b hb hout
    rw [hq]
    exact (Memory.write_of_not_covers (hnoCell k hk b hb)).trans (Memory.write_of_not_covers hout)
  -- words of the array other than the new element
  have hread : ∀ {a' : Word} (o : Nat), o + 4 ≤ 4 + 4 * i → a' = a - 4 + BitVec.ofNat 32 o →
      q.memory.read .word a' = p.memory.read .word a' := by
    intro a' o ho ha'
    refine Memory.read_congr fun b hb => ?_
    have hhas := Level.chunk_has hfits (by omega) ha' hb
    rw [hwrites _ (List.mem_append_left _ List.mem_cons_self) b hhas,
      h.kept hused hn hinner (.inr ⟨_, .head _, hhas⟩)]
    rw [Shaped.offset_eq]
    exact not_covers_of_offsets (.inl ho) (by omega) (by omega) (ha' ▸ hb)
  obtain ⟨hhead, -⟩ := List.pairwise_cons.mp hledger.apart
  refine ⟨by simp [h.length], ?_, ?_, hq ▸ Memory.read_write_word _ _ _, fun j part' hpart' => ?_⟩
  · have hown : ∀ b, Machine.Width.word.Covers (X.environment.cell n) b → X.InOwn low b :=
      fun b hb => ⟨n, _, hlow, hn, hb⟩
    have hnoted := ((hledger.load fun b hb => .inl (hown b hb)).store item fun b hb =>
      .inr ⟨_, List.mem_append_left _ (.head _), hplace b hb⟩).store
        (BitVec.ofNat 32 (i + 1)) fun b hb => .inl (hown b hb)
    have hspent : l.bytes + (i + 1) * totalBytes rest =
        l.bytes + i * totalBytes rest + totalBytes rest := by ring
    rw [hspent, List.flatten_append, List.flatten_singleton, hq]
    exact hnoted
  · rw [hread 0 (by omega) (by simp), h.count]
  · rcases Nat.lt_or_ge j parts.length with hj | hj
    · rw [List.getElem?_append_left hj] at hpart'
      have hmem := List.mem_of_getElem? hpart'
      rw [hread (4 + 4 * j) (by rw [h.length] at hj; omega) (Shaped.offset_eq a j)]
      refine (h.elements j part' hpart').congr hrest fun k hk b hb => ?_
      have hold : k ∈ parts.flatten := List.mem_flatten.mpr ⟨part', hmem, hk⟩
      rw [hwrites k (List.mem_append_left _ (List.mem_cons_of_mem _ hold)) b hb,
        h.kept hused hn hinner (.inr ⟨k, .tail _ hold, hb⟩)]
      exact fun hb' => hhead k (List.mem_append_left _ hold) b (hplace b hb') hb
    · obtain ⟨rfl, rfl⟩ : j = i ∧ part' = part := by
        rw [List.getElem?_append_right hj, h.length] at hpart'
        rw [h.length] at hj
        obtain ⟨hlt, hget⟩ := List.getElem?_eq_some_iff.mp hpart'
        simp only [List.length_singleton] at hlt
        exact ⟨by omega, by simpa using hget.symm⟩
      have hitem : q.memory.read .word (a + BitVec.ofNat 32 (4 * j)) = item := by
        rw [hq]
        refine (Memory.read_congr fun b hb => Memory.write_of_not_covers ?_).trans
          (Memory.read_write_word p1.memory _ _)
        exact hnoCell _ (List.mem_append_left _ (.head _)) b (hplace b hb)
      rw [hitem]
      refine hshaped.congr hrest fun k hk b hb => ?_
      refine hwrites k (List.mem_append_right _ hk) b hb fun hb' => ?_
      exact hhead k (List.mem_append_right _ hk) b (hplace b hb') hb

end Filled

/-! ## The code that builds an array -/

variable {held : List (Operand × Word)} {J : Past World → Prop}

theorem does_arrayBytes {count : Operand} (hcount : (count, BitVec.ofNat 32 n) ∈ held)
    (element : Ty) :
    X.Does low held J (arrayBytes count element)
      (fun o (_ : Unit) => [(o, BitVec.ofNat 32 (n * element.size + wordSize))]) fun _ _ => J := by
  unfold arrayBytes
  split
  · rename_i v
    refine ⟨fun _ => .pure trivial, ?_⟩
    intro s o s' t x fs hstep _ _ hstands _ hcells hheld hJ
    obtain ⟨rfl, rfl⟩ := EStateM.pure_eq_ok.mp hstep
    obtain rfl : v = BitVec.ofNat 32 n := Option.some.inj (hheld.value (.inl hcount))
    refine ⟨0, x, fs, (), .refl, hstands, hcells, fun _ _ => rfl, fun p hp => ?_, hJ⟩
    obtain rfl := List.mem_singleton.mp hp
    rw [BitVec.ofNat_add, BitVec.ofNat_mul]
    exact .constant _
  · have hbytes : BitVec.ofNat 32 (n * element.size + wordSize) =
        ArithOp.add.apply (ArithOp.mul.apply (BitVec.ofNat 32 n) (BitVec.ofInt 32 element.size))
          (BitVec.ofInt 32 wordSize) := by
      rw [BitVec.ofNat_add, BitVec.ofNat_mul, BitVec.ofInt_natCast, BitVec.ofInt_natCast]
      rfl
    rw [hbytes]
    exact (does_arith .mul (.inl hcount) (.inr ⟨_, rfl, rfl⟩)).bind fun scaled _ =>
      does_arith .add (.inl (.head _)) (.inr ⟨_, rfl, rfl⟩)

theorem slt_ofNat (hi : i ≤ n) (hn : n < 2 ^ 31) :
    (BitVec.ofNat 32 i).slt (BitVec.ofNat 32 n) = decide (i < n) := by
  have htoInt : ∀ k < 2 ^ 31, (BitVec.ofNat 32 k).toInt = k := by
    intro k hk
    rw [BitVec.toInt_eq_toNat_of_lt] <;> rw [BitVec.toNat_ofNat] <;> omega
  rw [BitVec.slt, htoInt i (by omega), htoInt n hn]
  exact decide_eq_decide.mpr Int.ofNat_lt

section

variable {l : Level} {rest : List Level} {element : Ty} {array count : Operand} {a : Word}
  {inner : Build Operand}

theorem does_fillItem (hused : X.CellsUsed c.world)
    (hn : X.body.cells[n]? = some { register := r, ty := .int }) (hlow : low ≤ n)
    (hpoints : X.PointsToWord (.register r)) (hnests : Nests (l :: rest))
    (hsize : l.size = wordSize) (hhollow : element.isHollow = false)
    (helem : element.size = wordSize) (harray : (array, a) ∈ held)
    (hcell : (.register r, X.environment.cell n) ∈ held)
    (hfree : totalBytes (l :: rest) ≤ X.free c.world)
    (hbuilds : ∀ bound, Builds False id bound inner)
    (hinner : ∀ p, totalBytes rest ≤ X.free p.world → X.CellsUsed p.world →
      X.Does (n + 1) held (· = p) inner (fun o a => [(o, a)]) fun _ item q => ∃ part,
      X.Ledger (n + 1) p q (totalBytes rest) part ∧ Shaped q.memory rest item part)
    (i : Nat) :
    X.Does (n + 1) held
      (fun p => i < l.count ∧ ∃ parts, X.Filled low c l rest a (X.environment.cell n) i parts p)
      (fillItem array element r inner) (fun _ (_ : Unit) => [])
      fun _ _ p => ∃ parts, X.Filled low c l rest a (X.environment.cell n) (i + 1) parts p := by
  refine .of_past (fun bound => builds_fillItem (hbuilds bound)) fun p ⟨hi, parts, hfilled⟩ => ?_
  have hroom : totalBytes rest ≤ X.free p.world := by
    have hspent := hfilled.ledger.free
    have hle : (i + 1) * totalBytes rest ≤ l.count * totalBytes rest := Nat.mul_le_mul_right _ hi
    rw [totalBytes] at hfree
    rw [Nat.succ_mul] at hle
    omega
  have hplace : a + BitVec.ofNat 32 i * BitVec.ofNat 32 element.size =
      a + BitVec.ofNat 32 (4 * i) := by
    rw [helem, wordSize, ← BitVec.ofNat_mul, Nat.mul_comm]
  have hnext : ArithOp.add.apply (BitVec.ofNat 32 i) (Constant.int (BitVec.ofInt 32 1)).bits =
      BitVec.ofNat 32 (i + 1) := by
    rw [BitVec.ofNat_add]
    rfl
  refine (hinner p hroom fun b hb => hfilled.ledger.used b (hused b hb)).bind fun o item => ?_
  let inside : Past World → Prop := fun p1 => ∃ part,
    X.Ledger (n + 1) p p1 (totalBytes rest) part ∧ Shaped p1.memory rest item part
  refine (does_loadInt (w := BitVec.ofNat 32 i) (K := fun q =>
    ∃ p1, inside p1 ∧ q = p1.load (X.environment.cell n)) (.inl (List.mem_append_right _ hcell))
      ?_).bind fun index _ => ?_
  · rintro p1 ⟨part, hledger, hshaped⟩
    refine ⟨(Memory.read_congr fun b hb => ?_).trans hfilled.counter, p1,
      ⟨part, hledger, hshaped⟩, rfl⟩
    exact hfilled.kept hused hn hledger (.inl hb)
  refine (does_elementAddress (w := a) (.inl (by simp [harray])) (.inl (.head _))).bind
    fun place _ => ?_
  refine (does_storeWord (w := item) (K := fun q => ∃ p1, inside p1 ∧
    q = (p1.load (X.environment.cell n)).store (a + BitVec.ofNat 32 (4 * i)) item)
      (.inl (by simp)) (.inl (.head _)) ?_).bind fun _ _ => ?_
  · rintro q ⟨htype, p1, hinside, rfl⟩
    have hwidth : element.width? = some .word := by rw [Ty.width?, helem]; rfl
    exact ⟨⟨element, htype, hhollow, hwidth⟩, p1, hinside, by rw [hplace]⟩
  refine (does_arith .add (w := BitVec.ofNat 32 i) (.inl (by simp)) (.inr ⟨_, rfl, rfl⟩)).bind
    fun following _ => ?_
  refine does_storeWord (a := X.environment.cell n) (.inl (.head _)) (.inl (by simp [hcell])) ?_
  rintro q ⟨p1, ⟨part, hledger, hshaped⟩, rfl⟩
  refine ⟨hpoints, parts ++ [part], ?_⟩
  rw [hnext]
  exact hfilled.round hused hn hlow hnests hsize hi hledger hshaped rfl

theorem does_fillArray (hused : X.CellsUsed c.world)
    (hnests : Nests (l :: rest)) (hsize : l.size = wordSize)
    (hhollow : element.isHollow = false) (helem : element.size = wordSize)
    (harray : (array, a) ∈ held) (hcount : (count, BitVec.ofNat 32 l.count) ∈ held)
    (hfree : totalBytes (l :: rest) ≤ X.free c.world)
    (hbuilds : ∀ bound, Builds False id bound inner)
    (hinner : ∀ low' held' p, held ⊆ held' → totalBytes rest ≤ X.free p.world →
      X.CellsUsed p.world → X.Does low' held' (· = p) inner (fun o a => [(o, a)]) fun _ item q =>
          ∃ part, X.Ledger low' p q (totalBytes rest) part ∧ Shaped q.memory rest item part) :
    X.Does low held (fun p => X.Ledger low c p l.bytes [l.chunk a] ∧
        p.memory.read .word (a - 4) = BitVec.ofNat 32 l.count)
      (fillArray array element count inner) (fun _ (_ : Unit) => []) fun _ _ p =>
        ∃ chunks, X.Ledger low c p (totalBytes (l :: rest)) chunks ∧
          Shaped p.memory (l :: rest) a chunks := by
  obtain ⟨hfits, -, -⟩ := id hnests
  have hlt : l.count < 2 ^ 31 := by
    rw [Level.bytes, hsize, wordSize] at hfits
    omega
  rw [fillArray_eq]
  refine Does.withCell (fun r bound => ?_) fun r n hlow hn hpoints => ?_
  · refine .bind (builds_emit _) fun _ _ => builds_countedLoop ?_ (builds_fillItem (hbuilds bound))
    exact .bind (builds_define _ _) fun _ _ => builds_define _ _
  have hown : ∀ b, Machine.Width.word.Covers (X.environment.cell n) b → X.InOwn low b :=
    fun b hb => ⟨n, _, hlow, hn, hb⟩
  let J : Nat → Past World → Prop := fun i p =>
    ∃ parts, X.Filled low c l rest a (X.environment.cell n) i parts p
  refine (does_storeWord (K := J 0) (.inr ⟨_, rfl, rfl⟩) (.inl (.head _)) ?_).bind fun _ _ => ?_
  · rintro p ⟨hledger, hread⟩
    refine ⟨hpoints, [], rfl, ?_, ?_, Memory.read_write_word _ _ _, by simp⟩
    · rw [Nat.zero_mul, Nat.add_zero]
      exact hledger.store _ fun b hb => .inl (hown b hb)
    · refine (Memory.read_congr fun b hb => Memory.write_of_not_covers fun hcell => ?_).trans hread
      exact (hledger.fresh _ (.head _) b (Level.chunk_has_count hfits hb)).1
        (hused b ⟨n, _, X.grows.cells _ _ hn, hcell⟩)
  refine (Does.loop (J := J) (n := l.count) (fun i => .of_past (fun bound => ?_) ?_) ?_).mono
    (fun _ hJ => hJ) fun _ _ p hJ => ?_
  · exact .bind (builds_define _ _) fun _ _ => builds_define _ _
  · rintro p ⟨hi, parts, hfilled⟩
    refine (does_loadInt (w := BitVec.ofNat 32 i) (K := J i) (.inl (.head _)) ?_).bind fun o _ => ?_
    · rintro _ rfl
      exact ⟨hfilled.counter, parts, { hfilled with
        ledger := hfilled.ledger.load fun b hb => .inl (hown b hb) }⟩
    · rw [← slt_ofNat hi hlt]
      exact (does_compare .slt (.inl (.head _)) (.inl (by simp [hcount]))).mono
        (fun _ hJ => hJ) fun _ _ _ hJ => hJ.2
  · refine does_fillItem hused hn hlow hpoints hnests hsize hhollow helem (by simp [harray])
      (.head _) hfree hbuilds fun p => hinner (n + 1) _ p ?_
    exact List.subset_cons_of_subset _ (List.Subset.refl _)
  · obtain ⟨parts, hfilled⟩ := hJ
    exact ⟨_, hfilled.ledger, hfilled.count, parts, rfl, hfilled.length, hfilled.elements⟩

end

/-- Ask for the block of an array and store the count. -/
def newBlock (ty element : Ty) (count : Operand) : Build Operand := do
  let bytes ← arrayBytes count element
  let memory ← callValue Linkage.allocate [bytes] .string
  let header ← bitCast memory Ty.int.pointerTo
  store count header
  let first ← elementAddress header .int (int 1)
  bitCast first ty

theorem newArray_cons {ty : Ty} (h : ty.pointee? = some element) (count : Operand)
    (inner : List Operand) :
    newArray ty (count :: inner) = (do
      let array ← newBlock ty element count
      unless inner.isEmpty do
        fillArray array element count (newArray element inner)
      return array) := by
  simp only [newArray, h, newBlock, bind_assoc]

theorem does_newBlock {l : Level} {element : Ty} (ty : Ty)
    (helem : element.size = l.size) (hfits : l.bytes < 2 ^ 31) {count : Operand}
    (hcount : (count, BitVec.ofNat 32 l.count) ∈ held) (hfree : l.bytes ≤ X.free c.world) :
    X.Does low held (· = c) (newBlock ty element count) (fun o a => [(o, a)]) fun _ a p =>
      X.Ledger low c p l.bytes [l.chunk a] ∧
        p.memory.read .word (a - 4) = BitVec.ofNat 32 l.count := by
  have htoNat := Level.toNat_bytes hfits
  refine (does_arrayBytes hcount element).bind fun bytes _ => ?_
  refine (does_call (w := BitVec.ofNat 32 l.bytes) (K := fun m p =>
    X.Ledger low c p l.bytes [l.chunk (m + 4)]) (.inl ?_) ?_).bind fun memory m => ?_
  · simp [helem, Level.bytes]
  · rintro _ rfl
    obtain ⟨world, m, a, hcall, hledger⟩ := Ledger.exists_of_serves
      (by rw [htoNat, Level.bytes, wordSize]; omega) (htoNat.symm ▸ hfree)
    rw [htoNat] at hledger
    exact ⟨world, m, a, hcall, by simpa [Level.chunk] using hledger⟩
  refine (does_bitCast (w := m) (.inl (.head _))).bind fun header _ => ?_
  refine (does_storeWord (w := BitVec.ofNat 32 l.count) (K := fun p =>
    X.Ledger low c p l.bytes [l.chunk (m + 4)] ∧
      p.memory.read .word (m + 4 - 4) = BitVec.ofNat 32 l.count) (.inl (by simp [hcount]))
        (.inl (.head _)) ?_).bind fun _ _ => ?_
  · rintro p ⟨htype, hledger⟩
    have hm : m + 4 - 4 = m := by simp
    rw [hm]
    refine ⟨⟨.int, htype, rfl, rfl⟩, hledger.store _ fun b hb => .inr ⟨_, .head _, ?_⟩,
      Memory.read_write_word _ _ _⟩
    exact Level.chunk_has_count hfits (hm.symm ▸ hb)
  refine (does_elementAddress (w := m) (.inl (by simp)) (.inr ⟨_, rfl, rfl⟩)).bind fun first _ => ?_
  rw [← bind_pure (bitCast first ty)]
  refine (does_bitCast (.inl (.head _))).bind fun array _ => ?_
  exact .pure (m + 4) (List.cons_subset_cons _ (List.nil_subset _)) fun p hp => hp.2.2

/-- **Building an array.**  The code asks for one block for each array and leaves them in the
shape that the counts tell. -/
theorem does_newArray (hle : counts.length ≤ ty.dimensions) (hnests : Nests (levelsOf ty counts))
    (hos : List.Forall₂ (fun o n => (o, BitVec.ofNat 32 n) ∈ held) os counts)
    (hfree : totalBytes (levelsOf ty counts) ≤ X.free c.world) (hused : X.CellsUsed c.world) :
    X.Does low held (· = c) (newArray (.ofSource ty) os) (fun o a => [(o, a)]) fun _ a p =>
      ∃ chunks, X.Ledger low c p (totalBytes (levelsOf ty counts)) chunks ∧
        Shaped p.memory (levelsOf ty counts) a chunks := by
  induction counts generalizing ty os low held c with
  | nil =>
    cases hos
    exact .throw
  | cons n counts ih =>
    cases hos with
    | @cons count _ os _ hcount hos =>
      rw [List.length_cons] at hle
      rw [newArray_cons (Ty.pointee?_ofSource (by omega))]
      obtain ⟨hfits, hword, hrest⟩ := id hnests
      refine (does_newBlock _ rfl hfits hcount ((Nat.le_add_right _ _).trans hfree)).bind
        fun array a => ?_
      have hall := hos
      cases hos with
      | nil =>
        refine .pure a (by simp) fun p ⟨hledger, hread⟩ => ⟨_, hledger, hread, ?_⟩
        refine ⟨List.replicate n [], by simp, by simp, fun i part hpart => ?_⟩
        exact (List.mem_replicate.mp (List.mem_of_getElem? hpart)).2
      | cons =>
        let inner : Source.Ty := { ty with dimensions := ty.dimensions - 1 }
        have hinner : 0 < inner.dimensions := by
          simp only [inner, List.length_cons] at hle ⊢
          omega
        have hpointer := Ty.size_of_pointee? (Ty.pointee?_ofSource hinner)
        refine (does_fillArray hused hnests hpointer.2 hpointer.1 hpointer.2 (.head _)
          (.tail _ hcount) hfree (fun bound => builds_newArray _ _)
            fun low' held' p hsub hfree' hused' => ?_).bind fun _ _ =>
          .pure a (by simp) fun p hp => hp
        refine ih (by simp only at hle ⊢; omega) hrest ?_ hfree' hused'
        exact hall.imp fun o n ho => hsub (.tail _ ho)

theorem map_count_levelsOf (ty : Source.Ty) (counts : List Nat) :
    (levelsOf ty counts).map Level.count = counts := by
  induction counts generalizing ty with
  | nil => rfl
  | cons n rest ih => exact congrArg (n :: ·) (ih _)

/-- Whatever code asks for the size of the array at an address, it reads the given number. -/
def SizeReads (X : Host World) (m : Memory) (a : Word) (n : Nat) : Prop :=
  ∀ array, ({ X with body := X.function, grows := .refl _ } : Site World).Does 0 [(array, a)]
    (fun p => p.memory = m) (arrayLength array) (fun o (_ : Unit) => [(o, BitVec.ofNat 32 n)])
    fun _ _ p => p.memory = m

theorem sizeReads (h : m.read .word (a - 4) = BitVec.ofNat 32 n) : X.SizeReads m a n := by
  intro array
  have haddr : a + BitVec.ofInt 32 (-1) * BitVec.ofNat 32 wordSize = a - 4 := by
    rw [show BitVec.ofInt 32 (-1) * BitVec.ofNat 32 wordSize = -4 from rfl]
    bv_omega
  refine (does_bitCast (.inl (.head _))).bind fun words _ => ?_
  refine (does_elementAddress (.inl (.head _)) (.inr ⟨_, rfl, rfl⟩)).bind fun header _ => ?_
  refine does_loadInt (.inl (.head _)) fun p hp => ?_
  obtain ⟨-, -, rfl⟩ := hp
  exact ⟨haddr ▸ h, rfl⟩

end Host

/-- A run evaluates expressions from left to right, each one once: it gets from where control
stands before the code of an expression to where it stands behind it. -/
inductive Setting.Evaluates (X : Setting World) (ctx : Context) (t : Option Terminator) :
    Builder → Position → State World → List Source.Expr → List Operand →
      Builder → Position → State World → Prop
  | nil (s x fs) : Evaluates X ctx t s x fs [] [] s x fs
  | cons {s x fs e o s1 n x1 fs1 es os s2 x2 fs2}
    (hbuild : (do (← ctx.lowerExpr e).toValue e : Build Operand) s = .ok o s1)
    (hgoes : X.Goes n x fs x1 fs1) (hstands : s1.Stands t x1)
    (hrest : Evaluates X ctx t s1 x1 fs1 es os s2 x2 fs2) :
    Evaluates X ctx t s x fs (e :: es) (o :: os) s2 x2 fs2

section

variable {ctx : Context} {fs fs' : State World} {s s' : Builder} {os : List Operand}
  {X : Setting World} {es : List Source.Expr} {x x' : Position} {t : Option Terminator}
  (h : X.Evaluates ctx t s x fs es os s' x' fs')
include h

theorem Setting.Evaluates.whole (hstands : s.Stands t x) :
    ctx.lowerEach pure es s = .ok os s' ∧ s'.Stands t x' ∧ ∃ n, X.Goes n x fs x' fs' := by
  induction h with
  | nil s x fs => exact ⟨by rw [Context.lowerEach]; rfl, hstands, 0, .refl⟩
  | cons hbuild hgoes hstands1 _ ih =>
    obtain ⟨heach, hstands', n, hgoes'⟩ := ih hstands1
    refine ⟨?_, hstands', _, hgoes.trans hgoes'⟩
    obtain ⟨lowered, s0, h0, h1⟩ := EStateM.bind_eq_ok.mp hbuild
    rw [Context.lowerEach]
    refine EStateM.bind_eq_ok.mpr ⟨lowered, s0, h0, EStateM.bind_eq_ok.mpr ⟨_, _, h1, ?_⟩⟩
    refine EStateM.bind_eq_ok.mpr ⟨_, _, rfl, EStateM.bind_eq_ok.mpr ⟨_, _, heach, rfl⟩⟩

theorem Setting.Evaluates.length_eq : os.length = es.length := by
  induction h with
  | nil => rfl
  | cons _ _ _ _ ih => exact congrArg (· + 1) ih

end

/-- **Array allocation builds the whole nested structure.**  Once the counts are evaluated, each
one once and from left to right, the code of a new array ends.  It asks for one block for each
array and does nothing else that can be seen but to access these blocks and its own stack cells
(`Host.Ledger`).  Indices of arrays, in an array or in the arrays it is made of, lead to blocks
of their own, and there the size is read that was asked for. -/
theorem Host.goes_new_nested {X : Host World} {ctx : Context} {ty allocated : Source.Ty}
    {dims : List Source.Expr} {counts : List Nat} {os : List Operand} {lowered : Lowered}
    {s s₁ s' : Builder} {t : Option Terminator} {x x₁ : Position} {fs fs₁ : State World}
    (hlower : ctx.lowerExpr (.new ty allocated dims) s = .ok lowered s')
    (hbody : X.body = s'.function) (hplaced : s.function.CellsPlaced) (hstands : s.Stands t x)
    (hne : dims ≠ []) (hle : dims.length ≤ allocated.dimensions)
    (hruns : X.Evaluates ctx t s x fs dims os s₁ x₁ fs₁) (hcells : X.HasCells fs₁)
    (hused : X.CellsUsed fs₁.world)
    (hcounts : List.Forall₂ (fun o n => X.Holds s₁ fs₁ o (BitVec.ofNat 32 n)) os counts)
    (hfits : ∀ l ∈ levelsOf allocated counts, l.bytes < 2 ^ 31)
    (hfree : totalBytes (levelsOf allocated counts) ≤ X.free fs₁.world) :
    ∃ o a n m y fs' chunks, lowered = .value o ∧ X.Goes n x fs x₁ fs₁ ∧ X.Goes m x₁ fs₁ y fs' ∧
      s'.Stands t y ∧ fs'.value? X.environment o = some a ∧
      X.Ledger s₁.function.cells.size fs₁.past fs'.past (totalBytes (levelsOf allocated counts))
        chunks ∧
      chunks.length = ∑ j ∈ Finset.range counts.length, (counts.take j).prod ∧
      ∀ indices, Selects (levelsOf allocated counts) indices →
        (∃ l, (levelsOf allocated counts)[indices.length]? = some l ∧
          l.chunk (descend fs'.memory a indices) ∈ chunks ∧
          X.SizeReads fs'.memory (descend fs'.memory a indices) l.count) ∧
        ∀ indices', Selects (levelsOf allocated counts) indices' →
          descend fs'.memory a indices = descend fs'.memory a indices' → indices = indices' := by
  obtain ⟨heach, hstands₁, n, hgoes⟩ := hruns.whole hstands
  have hlength : counts.length = dims.length := by rw [← hcounts.length_eq, hruns.length_eq]
  have hpos : 0 < dims.length := List.length_pos_iff.mpr hne
  have harray : allocated.isArray = true := decide_eq_true (hpos.trans_le hle)
  rw [Context.lowerExpr, if_pos harray] at hlower
  obtain ⟨os', s₁', heach', hnew⟩ := EStateM.bind_eq_ok.mp hlower
  obtain ⟨rfl, rfl⟩ : os' = os ∧ s₁' = s₁ := by simpa [heach] using heach'.symm
  obtain ⟨o, hbuilt, rfl⟩ := EStateM.map_eq_ok.mp hnew
  have hG : Grows s'.function X.body := hbody ▸ Grows.refl _
  have hlater := (builds_lowerEach ctx (fun _ => .pure trivial) dims).later heach
  obtain ⟨hzip, hholds⟩ := List.forall₂_iff_zip.mp hcounts
  have hheld : X.HoldAll s₁' fs₁ ((os'.zip counts).map fun p => (p.1, BitVec.ofNat 32 p.2)) := by
    intro p hp
    obtain ⟨q, hq, rfl⟩ := List.mem_map.mp hp
    exact hholds hq
  have hos : List.Forall₂ (fun o n => (o, BitVec.ofNat 32 n) ∈
      (os'.zip counts).map fun p => (p.1, BitVec.ofNat 32 p.2)) os' counts :=
    List.forall₂_iff_zip.mpr ⟨hzip, fun hmem => List.mem_map_of_mem hmem⟩
  have hnests := nests_levelsOf (hlength ▸ hle) hfits
  obtain ⟨m, y, fs', a, hgoes', hstands', -, -, hgains, chunks, hledger, hshaped⟩ :=
    (does_newArray (hlength ▸ hle) hnests hos hfree hused).goes hbuilt
      (hlater.edits.cellsPlaced hplaced) (Nat.le_refl _) hstands₁ hG hcells hheld rfl
  refine ⟨o, a, n, m, y, fs', chunks, rfl, hgoes, hgoes', hstands',
    hgains.value (.inl (.head _)), hledger, ?_, fun indices hindices => ⟨?_, ?_⟩⟩
  · rw [hshaped.length_eq]
    simp only [List.map_take, map_count_levelsOf]
    rw [← List.length_map, map_count_levelsOf]
  · obtain ⟨l, hl, hread, hmem⟩ := hshaped.descend hindices
    exact ⟨l, hl, hmem, sizeReads hread⟩
  · exact fun indices' hindices' => hshaped.descend_inj hledger.starts_nodup hindices hindices'

end

/-! ### An allocator that hands out memory from one end -/

/-- A body that has only begun. -/
def gridStart : Builder :=
  { function := { name := "main", returnType := .void,
                  blocks := { entries := #[{ label := "entry" }] } },
    strings := .empty, nextLabel := 0, log := #[] }

def gridCode : Build Operand :=
  newArray (.ofSource ⟨.int, 3⟩) [.constant (.int 2), .constant (.int 5)]

def gridEnd : Builder :=
  match gridCode gridStart with
  | .ok _ s => s
  | .error _ s => s

theorem gridCode_gridStart : gridCode gridStart = .ok (.register ⟨3⟩) gridEnd := by
  cbv

theorem cells_gridEnd : gridEnd.function.cells = #[⟨⟨4⟩, .int⟩] := by
  cbv

-- From here on the two lemmas say all that is known of the body.
attribute [irreducible] gridEnd

theorem cell_gridEnd (h : gridEnd.function.cells[n]? = some c) : n = 0 ∧ c = ⟨⟨4⟩, .int⟩ := by
  have hn := (Array.getElem?_eq_some_iff.mp h).1
  simp only [cells_gridEnd, List.size_toArray, List.length_singleton, Nat.lt_one_iff] at hn
  subst hn
  rw [cells_gridEnd] at h
  exact ⟨rfl, by simpa using h.symm⟩

def grid : Host Nat where
  environment := ⟨fun _ => 0, fun _ => 0, fun n => BitVec.ofNat 32 n, fun world _ arguments m =>
    arguments.head?.map fun bytes => (world + bytes.toNat, m, BitVec.ofNat 32 world)⟩
  program := {}
  function := gridEnd.function
  result := none
  body := gridEnd.function
  grows := .refl _
  used world b := b.toNat < world
  free world := 2 ^ 31 - world
  serves := by
    refine fun world bytes m hfree => ⟨_, m, _, rfl, by omega, fun b hb => ⟨by omega, rfl⟩, ?_⟩
    rintro b ⟨k, hk, rfl⟩
    simp only [BitVec.toNat_add, BitVec.toNat_ofNat] at hk ⊢
    omega
  apart := by
    intro n m c d hc hd hne
    exact absurd ((cell_gridEnd hc).1.trans (cell_gridEnd hd).1.symm) hne

def gridState : State Nat :=
  ⟨fun r => if r.val = 4 then some 0 else none, fun _ => 0, 8, []⟩

/-- Three blocks for two arrays of five arrays that are not there yet. -/
theorem goes_new_nested_grid :
    ∃ a m y fs' chunks, grid.Goes m (.inside ⟨0⟩ 0) gridState y fs' ∧
      grid.Ledger 0 gridState.past fs'.past 60 chunks ∧ chunks.length = 3 ∧
        descend fs'.memory a [0] ≠ descend fs'.memory a [1] := by
  let ctx : Context := { symbols := {}, structs := [], globals := [], function := "main" }
  let literal (n : Word) : Source.Expr := .literal ⟨.int, 0⟩ (.integer n)
  have hstands : gridStart.Stands none (.inside ⟨0⟩ 0) := ⟨_, rfl, rfl, rfl, rfl⟩
  have hliteral : ∀ n : Word, (do (← ctx.lowerExpr (literal n)).toValue (literal n) :
      Build Operand) gridStart = .ok (.constant (.int n)) gridStart := by
    intro n
    rw [Context.lowerExpr]
    rfl
  have hruns : grid.Evaluates ctx none gridStart (.inside ⟨0⟩ 0) gridState [literal 2, literal 5]
      [.constant (.int 2), .constant (.int 5)] gridStart (.inside ⟨0⟩ 0) gridState :=
    .cons (hliteral 2) .refl hstands (.cons (hliteral 5) .refl hstands (.nil _ _ _))
  have hlower : ctx.lowerExpr (.new ⟨.int, 3⟩ ⟨.int, 3⟩ [literal 2, literal 5]) gridStart =
      .ok (.value (.register ⟨3⟩)) gridEnd := by
    rw [Context.lowerExpr, if_pos (by decide)]
    refine EStateM.bind_eq_ok.mpr ⟨_, _, (hruns.whole hstands).1, ?_⟩
    exact EStateM.map_eq_ok.mpr ⟨_, gridCode_gridStart, rfl⟩
  have hcells : grid.HasCells gridState := by
    intro n c hc
    obtain ⟨rfl, rfl⟩ := cell_gridEnd hc
    rfl
  have hused : grid.CellsUsed gridState.world := by
    rintro b ⟨n, c, hc, hb⟩
    obtain ⟨rfl, rfl⟩ := cell_gridEnd hc
    rcases hb with rfl | rfl | rfl | rfl <;> simp [grid, gridState]
  have hcounts : List.Forall₂ (fun o n => grid.Holds gridStart gridState o (BitVec.ofNat 32 n))
      [.constant (.int 2), .constant (.int 5)] [2, 5] :=
    .cons (.constant _) (.cons (.constant _) .nil)
  obtain ⟨o, a, n, m, y, fs', chunks, -, -, hgoes, -, -, hledger, hlength, hdescend⟩ :=
    Host.goes_new_nested hlower rfl ⟨by simp [gridStart], by simp [gridStart]⟩ hstands (by simp)
      (by simp) hruns hcells hused hcounts (by decide) (by decide)
  refine ⟨a, m, y, fs', chunks, hgoes, hledger, hlength, fun heq => ?_⟩
  have := (hdescend [0] (by simp [Selects, levelsOf])).2 [1] (by simp [Selects, levelsOf]) heq
  simp at this

end MxStar.Flow
