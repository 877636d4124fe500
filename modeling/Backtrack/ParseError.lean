-- The error that a failed parse is turned into: where the text could not be
-- read any further, and what would have been read there.
import Backtrack.Text.Blank
import Backtrack.Text.Line
import Backtrack.Text.Margin

namespace Backtrack

/-- A failed parse: the text, the offset of the failures that got furthest, and
what was expected there. -/
structure ParseError where
  text : Text
  index : Int
  expected : List String
deriving DecidableEq, Repr

namespace ParseError

/-! ## Where it happened -/

def position (e : ParseError) : Position := e.text.position e.index

/-- The line of the text in which it happened, without the blanks at its end. -/
def snippet? (e : ParseError) : Option Text :=
  (e.text.sourceLine? e.position.line).map Text.trimEnd

/-- The line that points at the column. -/
def pointer (e : ParseError) : Text :=
  List.replicate (e.position.column - 1).toNat ' ' ++ ['^']

/-! ## The message -/

/-- What was expected, as a choice. -/
def expectation (e : ParseError) : String :=
  if e.expected.isEmpty then "nothing" else " or ".intercalate e.expected

/-- The margin before the snippet and the pointer. -/
def margin : Text := List.replicate 4 ' '

/-- The message shows the position, the line of the text with a pointer below it,
and what was expected. -/
def message? (e : ParseError) : Option String := do
  let snippet ← e.snippet?
  let shown := Text.withMargin margin (snippet ++ '\n' :: e.pointer)
  return "At line " ++ toString e.position.line ++ " column " ++ toString e.position.column ++ ":\n"
    ++ String.ofList shown ++ "\nExpected " ++ e.expectation

end ParseError

end Backtrack
