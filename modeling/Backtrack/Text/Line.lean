-- Lines of a text. A line ends at a carriage return with a line feed, at a
-- lone carriage return or at a lone line feed. Two readings stand side by
-- side: the lines themselves, and the places where the breaks end, from which
-- the line and the column of an offset are counted.
import Backtrack.Text

namespace Backtrack

/-! ## The lines -/

namespace Text

/-- The lines of a text without their breaks. A text has one line more than it
has breaks. -/
def lines : Text → List Text
  | [] => [[]]
  | '\r' :: '\n' :: rest => [] :: lines rest
  | c :: rest =>
    if c = '\r' ∨ c = '\n' then [] :: lines rest
    else match lines rest with
      | [] => [[c]]
      | line :: others => (c :: line) :: others

/-- A line by its number. The first line has number 1, and numbers from 0 down
count back from the last line. -/
def sourceLine? (text : Text) (number : Int) : Option Text :=
  let all := text.lines
  let k := number - 1
  let k := if k < 0 then k + all.length else k
  if k < 0 then none else all[k.toNat]?

/-! ## The position of an offset -/

/-- Where each break of the text ends, when the text itself begins at `start`. -/
def breakEnds (start : Nat) : Text → List Nat
  | [] => []
  | '\r' :: '\n' :: rest => (start + 2) :: breakEnds (start + 2) rest
  | c :: rest =>
    if c = '\r' ∨ c = '\n' then (start + 1) :: breakEnds (start + 1) rest
    else breakEnds (start + 1) rest

end Text

/-- A line and a column, both counted from 1. The column falls to 0 and below
for an offset before the text. -/
structure Position where
  line : Nat
  column : Int
deriving DecidableEq, Repr

/-- The position of an offset. One beyond the end stands for the end, and one
inside a break belongs to the line that the break ends. -/
def Text.position (text : Text) (offset : Int) : Position :=
  let offset := min offset text.length
  let passed := (text.breakEnds 0).takeWhile fun (stop : Nat) => decide ((stop : Int) ≤ offset)
  let lineStart : Nat := passed.getLast?.getD 0
  ⟨passed.length + 1, offset - lineStart + 1⟩

/-! ## Lines and breaks agree -/

theorem Text.lines_ne_nil (text : Text) : text.lines ≠ [] := by
  fun_cases Text.lines text <;> simp_all

theorem Text.length_lines (text : Text) (start : Nat) :
    text.lines.length = (text.breakEnds start).length + 1 := by
  fun_induction Text.lines text generalizing start with
  | case1 => simp [breakEnds]
  | case2 rest ih => simp [breakEnds, ih (start + 2)]
  | case3 c rest _ hc ih => simp_all [breakEnds, ih (start + 1)]
  | case4 c rest _ hc hn ih => exact absurd hn (lines_ne_nil rest)
  | case5 c rest _ hc line others hl ih =>
    have := ih (start + 1)
    simp_all [breakEnds]

end Backtrack
