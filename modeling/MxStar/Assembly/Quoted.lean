/-!
# Quoted strings in assembly text

The assembler reads a string between double quotes.  Printable ASCII stands for
itself; a quote, a backslash and the usual blanks have short escapes, and every
other byte is written as three octal digits, so that a digit after it cannot be
taken for part of it.
-/

namespace MxStar.Assembly

/-- One octal digit. -/
def octalDigit (n : Nat) : Char :=
  Char.ofNat ('0'.toNat + n % 8)

/-- One byte of a quoted string. -/
def quoteByte (b : UInt8) : List Char :=
  let n := b.toNat
  if n = 0x22 then ['\\', '"']
  else if n = 0x5c then ['\\', '\\']
  else if n = 0x0a then ['\\', 'n']
  else if n = 0x09 then ['\\', 't']
  else if n = 0x0d then ['\\', 'r']
  else if 0x20 ≤ n ∧ n ≤ 0x7e then [Char.ofNat n]
  else ['\\', octalDigit (n / 64), octalDigit (n / 8), octalDigit n]

/-- The string between double quotes. -/
def quote (s : String) : String :=
  String.ofList ('"' :: s.toUTF8.toList.flatMap quoteByte ++ ['"'])

end MxStar.Assembly
