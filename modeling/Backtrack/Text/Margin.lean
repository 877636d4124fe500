-- The margin of a message: every line that shows ink is moved to the right.
-- Here a line ends at any of the line boundaries of plain text, and each line
-- keeps its ending.
import Backtrack.Text.Blank

namespace Backtrack

/-- A character that ends a line of plain text. -/
def isLineBoundary (c : Char) : Bool :=
  ['\n', '\r', '\x0b', '\x0c', '\x1c', '\x1d', '\x1e', '\x85', '\u2028', '\u2029'].contains c

namespace Text

/-- The text cut behind each line boundary, endings kept. A carriage return and
the line feed behind it are one ending. -/
def pieces : Text → List Text
  | [] => []
  | '\r' :: '\n' :: rest => ['\r', '\n'] :: pieces rest
  | c :: rest =>
    if isLineBoundary c then [c] :: pieces rest
    else match pieces rest with
      | [] => [[c]]
      | piece :: others => (c :: piece) :: others

/-- The text with the margin before each piece that is not all blank. -/
def withMargin (margin text : Text) : Text :=
  text.pieces.flatMap fun piece => if piece.all isBlank then piece else margin ++ piece

/-- Cutting a text into pieces loses nothing. -/
theorem flatten_pieces (text : Text) : text.pieces.flatten = text := by
  fun_induction Text.pieces text with
  | case1 => rfl
  | case2 rest ih => simp [ih]
  | case3 c rest _ hc ih => simp [ih]
  | case4 c rest _ hc hn ih => simp_all
  | case5 c rest _ hc piece others hp ih => simp_all

end Text

end Backtrack
