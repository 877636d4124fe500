-- Outcomes: what one attempt of a parser comes to.
import Backtrack.Value

namespace Backtrack

/-- One attempt of a parser: a success says where the text that it took ends and
what it produced, and a failure says where it happened and what was expected
there. -/
inductive Outcome where
  | success (index : Int) (value : Value)
  | failure (index : Int) (expect : String)
deriving Inhabited

namespace Outcome

def isSuccess : Outcome → Bool
  | success _ _ => true
  | failure _ _ => false

/-- The offset of an outcome. -/
def index : Outcome → Int
  | success index _ => index
  | failure index _ => index

/-- The outcome moved by a distance. -/
def moved (distance : Int) : Outcome → Outcome
  | success index value => success (index + distance) value
  | failure index expect => failure (index + distance) expect

/-- The outcome with a value put before that of a success, as a pair. -/
def pairedWith (value : Value) : Outcome → Outcome
  | success index other => success index (.pair value other)
  | failure index expect => failure index expect

end Outcome

end Backtrack
