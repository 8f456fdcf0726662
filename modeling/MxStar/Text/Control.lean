/-!
# Text without terminal controls

A terminal does not show all it is sent.  Control characters act on it, and an
escape character opens a control sequence or a control string, which it reads
to the end and does not show.  `withoutControls` keeps what a terminal would
show of a text, and its line breaks.

A sequence ends at its final character.  A control string runs on until it is
closed or broken off; one that never is takes the rest of the text with it.
-/

namespace MxStar.Text

/-- What a terminal is in the middle of. -/
inductive ControlMode
  /-- Showing text -/
  | text
  /-- An escape character was read -/
  | escape
  /-- An escape character and intermediate characters were read -/
  | escapeIntermediate
  /-- A control sequence was opened; its final character is to come -/
  | sequence
  /-- A device control string was opened -/
  | deviceStart
  /-- Parameters of a device control string were read -/
  | deviceParameters
  /-- Intermediate characters of a device control string were read -/
  | deviceIntermediate
  /-- Data of a device control string are being read -/
  | deviceData
  /-- A command to the operating system is being read -/
  | systemCommand
  /-- A string that nothing makes use of is being read -/
  | ignoredString
deriving DecidableEq, Repr

namespace ControlMode

/-- Whether a character acts on the terminal instead of being shown. -/
def isControl (c : Char) : Bool :=
  decide (c.toNat < 0x20) || decide (0x80 ≤ c.toNat ∧ c.toNat < 0xa0)

/-- Whether a character is an intermediate one of a sequence. -/
def isIntermediate (c : Char) : Bool :=
  decide (0x20 ≤ c.toNat ∧ c.toNat ≤ 0x2f)

/-- Whether a character is part of a numeric parameter. -/
def isNumeric (c : Char) : Bool :=
  decide (0x30 ≤ c.toNat ∧ c.toNat ≤ 0x3b)

/-- Whether a character marks a parameter as private. -/
def isPrivateMark (c : Char) : Bool :=
  decide (0x3c ≤ c.toNat ∧ c.toNat ≤ 0x3f)

/-- Whether a character ends a control sequence. -/
def isFinal (c : Char) : Bool :=
  decide (0x40 ≤ c.toNat ∧ c.toNat ≤ 0x7e)

/-- The encoded bytes of a character after the first that closes a control
string, if there is one. -/
def afterClose? (c : Char) : Option (List UInt8) :=
  match (String.utf8EncodeChar c).dropWhile (· != 0x9c) with
  | [] => none
  | _ :: rest => some rest

/-- The mode after the first character that follows an escape character. -/
def afterEscape (c : Char) : ControlMode :=
  match c with
  | '[' => .sequence
  | ']' => .systemCommand
  | 'P' => .deviceStart
  | 'X' | '^' | '_' => .ignoredString
  | _ =>
    if isIntermediate c then .escapeIntermediate
    else if isNumeric c || isPrivateMark c || isFinal c then .text
    else .escape

/-- The mode of a device control string after a character before its data.
Parameters come first and private marks before all others; a string in any other
order is read, but nothing makes use of it. -/
def deviceNext (mode : ControlMode) (c : Char) : ControlMode :=
  if isFinal c then .deviceData
  else if isIntermediate c then .deviceIntermediate
  else if isNumeric c then
    if mode = .deviceIntermediate then .ignoredString else .deviceParameters
  else if isPrivateMark c then
    if mode = .deviceStart then .deviceParameters else .ignoredString
  else mode

/-- The mode after a character.  Cancel and substitute break off whatever is
being read, and an escape character starts anew. -/
def next (mode : ControlMode) (c : Char) : ControlMode :=
  match c with
  | '\x18' | '\x1a' => .text
  | '\x1b' => .escape
  | _ =>
    match mode with
    | .text => .text
    | .escape => afterEscape c
    | .escapeIntermediate =>
      if isNumeric c || isPrivateMark c || isFinal c then .text else .escapeIntermediate
    | .sequence => if isFinal c then .text else .sequence
    | .deviceStart | .deviceParameters | .deviceIntermediate => mode.deviceNext c
    | .deviceData => if (afterClose? c).isSome then .text else .deviceData
    | .systemCommand => if c = '\x07' then .text else .systemCommand
    | .ignoredString => .ignoredString

/-- What is shown of a character: in text the character, unless it is a control.
A line break takes effect within a sequence too, but not within a string.  A
string can be closed in the middle of a character; the bytes then left over are
shown as the replacement character, unless they are controls. -/
def shown (mode : ControlMode) (c : Char) : List Char :=
  match mode with
  | .text => if c = '\n' || !isControl c then [c] else []
  | .escape | .escapeIntermediate | .sequence => if c = '\n' then [c] else []
  | .deviceData =>
    (((afterClose? c).getD []).filter fun byte => decide (0xa0 ≤ byte)).map fun _ => '\ufffd'
  | .deviceStart | .deviceParameters | .deviceIntermediate | .systemCommand
  | .ignoredString => []

theorem mem_shown {mode : ControlMode} {c d : Char} (hd : d ∈ mode.shown c) :
    d = c ∨ d = '\ufffd' := by
  cases mode <;> simp only [shown] at hd
  case deviceData =>
    obtain ⟨_, _, rfl⟩ := List.mem_map.mp hd
    exact Or.inr rfl
  case text | escape | escapeIntermediate | sequence =>
    split at hd <;> simp_all
  all_goals simp at hd

end ControlMode

/-- A terminal in the middle of a text. -/
structure Terminal where
  mode : ControlMode := .text
  screen : String := ""

/-- Send one character. -/
def Terminal.send (t : Terminal) (c : Char) : Terminal where
  mode := t.mode.next c
  screen := t.screen ++ String.ofList (t.mode.shown c)

theorem Terminal.mem_screen_foldl {cs : List Char} {t : Terminal} {d : Char}
    (hd : d ∈ (cs.foldl send t).screen.toList) :
    d ∈ t.screen.toList ∨ d ∈ cs ∨ d = '\ufffd' := by
  induction cs generalizing t with
  | nil => exact Or.inl hd
  | cons c cs ih =>
    rcases ih hd with h | h | h
    · rcases List.mem_append.mp (by simpa [send] using h) with h | h
      · exact Or.inl h
      · rcases ControlMode.mem_shown h with rfl | rfl <;> simp
    · exact Or.inr (Or.inl (List.mem_cons_of_mem _ h))
    · exact Or.inr (Or.inr h)

/-- What a terminal shows of a text. -/
def withoutControls (s : String) : String :=
  (s.toList.foldl Terminal.send {}).screen

/-- Every character that is left was there before, replacements apart.  In
particular no line break is added. -/
theorem mem_withoutControls {s : String} {d : Char} (hd : d ∈ (withoutControls s).toList) :
    d ∈ s.toList ∨ d = '\ufffd' := by
  rcases Terminal.mem_screen_foldl hd with h | h
  · simp at h
  · exact h

end MxStar.Text
