/-!
# Classes of characters

A class of characters is a list of ranges of code points.  This module holds
the form and the small classes whose characters cannot be seen on their own:
controls, format characters, blanks, fillers and private use.  The two long
ones, extending marks and unassigned code points, have a module each and are
written by the lengths of their runs.  All of them follow version 17 of the
Unicode standard.
-/

namespace MxStar.Text

/-- A set of characters, as closed ranges of code points. -/
structure CharClass where
  ranges : List (Nat × Nat)
deriving DecidableEq, Repr

namespace CharClass

/-- Whether a character is in the class. -/
def has (cls : CharClass) (c : Char) : Bool :=
  cls.ranges.any fun (first, last) => decide (first ≤ c.toNat ∧ c.toNat ≤ last)

/-- The ranges of runs of code points from `start` on, in turn outside and inside of a class. -/
def rangesOfRuns (start : Nat) : List Nat → List (Nat × Nat)
  | outside :: inside :: rest =>
    (start + outside, start + outside + inside - 1) ::
      rangesOfRuns (start + outside + inside) rest
  | _ => []

/-- A class by the lengths of the runs of code points outside and inside of it, in turn. -/
def ofRuns (runs : List Nat) : CharClass where
  ranges := rangesOfRuns 0 runs

/-- The control characters. -/
def control : CharClass where
  ranges := [(0x0, 0x1f), (0x7f, 0x9f)]

/-- Characters that only direct how others are shown. -/
def format : CharClass where
  ranges :=
    [(0xad, 0xad), (0x600, 0x605), (0x61c, 0x61c), (0x6dd, 0x6dd), (0x70f, 0x70f), (0x890, 0x891),
     (0x8e2, 0x8e2), (0x180e, 0x180e), (0x200b, 0x200f), (0x202a, 0x202e), (0x2060, 0x2064),
     (0x2066, 0x206f), (0xfeff, 0xfeff), (0xfff9, 0xfffb), (0x110bd, 0x110bd), (0x110cd, 0x110cd),
     (0x13430, 0x1343f), (0x1bca0, 0x1bca3), (0x1d173, 0x1d17a), (0xe0001, 0xe0001),
     (0xe0020, 0xe007f)]

/-- Blanks and separators other than the space. -/
def blank : CharClass where
  ranges :=
    [(0xa0, 0xa0), (0x1680, 0x1680), (0x2000, 0x200a), (0x2028, 0x2029), (0x202f, 0x202f),
     (0x205f, 0x205f), (0x3000, 0x3000)]

/-- Letters that stand for the lack of one and show nothing. -/
def filler : CharClass where
  ranges := [(0x115f, 0x1160), (0x3164, 0x3164), (0xffa0, 0xffa0)]

/-- Code points the standard leaves to private agreement. -/
def privateUse : CharClass where
  ranges := [(0xe000, 0xf8ff), (0xf0000, 0xffffd), (0x100000, 0x10fffd)]

end CharClass

end MxStar.Text
