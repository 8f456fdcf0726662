/-!
# Terminal colours

Listings of a flow graph can be coloured for a terminal.  A coloured piece is
opened by the escape sequence of its colour and closed by the reset sequence;
the plain style leaves every piece as it is.
-/

namespace MxStar.Text

/-- The colours a listing uses. -/
inductive Color
  | yellow
  | blue
  | magenta
  | cyan
  | white
  | brightRed
deriving DecidableEq, Repr

/-- The number that selects the colour in an escape sequence. -/
def Color.code : Color → String
  | .yellow => "33"
  | .blue => "34"
  | .magenta => "35"
  | .cyan => "36"
  | .white => "37"
  | .brightRed => "91"

/-- Whether a listing is coloured. -/
inductive Style
  | plain
  | colored
deriving DecidableEq, Repr

/-- The escape sequence that opens a colour. -/
def Color.opening (color : Color) : String :=
  "\x1b[" ++ color.code ++ "m"

/-- The escape sequence that closes every colour. -/
def colorReset : String := "\x1b[0m"

/-- The text with the colour opened anew behind each reset sequence in it. -/
def Color.reopen (color : Color) : List Char → List Char
  | '\x1b' :: '[' :: '0' :: 'm' :: rest =>
    (colorReset ++ color.opening).toList ++ color.reopen rest
  | c :: rest => c :: color.reopen rest
  | [] => []

/-- One piece of a listing in the given colour, which lasts to the end of the
piece even if a name in it holds a reset sequence. -/
def Style.paint (style : Style) (color : Color) (piece : String) : String :=
  match style with
  | .plain => piece
  | .colored => color.opening ++ String.ofList (color.reopen piece.toList) ++ colorReset

@[simp]
theorem Style.paint_plain (color : Color) (piece : String) :
    Style.plain.paint color piece = piece := rfl

end MxStar.Text
