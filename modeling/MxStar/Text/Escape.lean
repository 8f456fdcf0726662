import MxStar.Text.Mark
import MxStar.Text.Unassigned

/-!
# Escaped text

Two ways to show a string inside a message or a listing.  `ascii` leaves
nothing but printable ASCII; `quoted` puts the string between double quotes and
escapes only what could not be read back by eye.  Both write a character that
has no short form as its code point in hexadecimal between braces.
-/

namespace MxStar.Text

/-- A code point in hexadecimal, such as `\u{1f}`. -/
def codePoint (c : Char) : String :=
  "\\u\x7b" ++ String.ofList (Nat.toDigits 16 c.toNat) ++ "\x7d"

/-- One character as printable ASCII. -/
def asciiChar (c : Char) : String :=
  match c with
  | '\t' => "\\t"
  | '\r' => "\\r"
  | '\n' => "\\n"
  | '\'' => "\\'"
  | '"' => "\\\""
  | '\\' => "\\\\"
  | _ => if 0x20 ≤ c.toNat ∧ c.toNat ≤ 0x7e then c.toString else codePoint c

/-- The string as printable ASCII. -/
def ascii (s : String) : String :=
  String.join (s.toList.map asciiChar)

/-- The classes whose characters leave no mark of their own. -/
def unmarkedClasses : List CharClass :=
  [.control, .format, .blank, .filler, .privateUse, .extendingMark, .unassigned]

/-- Whether a character leaves no mark of its own. -/
def isUnmarked (c : Char) : Bool :=
  unmarkedClasses.any fun cls => cls.has c

/-- One character of a quoted string. -/
def quotedChar (c : Char) : String :=
  match c with
  | '\x00' => "\\0"
  | '\t' => "\\t"
  | '\r' => "\\r"
  | '\n' => "\\n"
  | '"' => "\\\""
  | '\\' => "\\\\"
  | _ => if isUnmarked c then codePoint c else c.toString

/-- The string between double quotes. -/
def quoted (s : String) : String :=
  "\"" ++ String.join (s.toList.map quotedChar) ++ "\""

end MxStar.Text
