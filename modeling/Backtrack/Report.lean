-- Reports: what a parse comes to. The first success is reported, and without
-- one every failure that was met.
import Backtrack.Stream

namespace Backtrack

/-! ## Reports -/

/-- A failure that was met. -/
structure Expected where
  index : Int
  expect : String
deriving DecidableEq, Repr

/-- What a parse comes to. -/
inductive Report where
  | success (index : Int) (value : Value)
  | failure (errors : List Expected)

namespace Report

/-- The report on outcomes in their order. -/
def ofOutcomes : List Outcome → Report
  | [] => failure []
  | .success index value :: _ => success index value
  | .failure index expect :: rest =>
    match ofOutcomes rest with
    | success index value => success index value
    | failure errors => failure (⟨index, expect⟩ :: errors)

/-- The record that a parse of a text writes to the log. -/
def record (length : Nat) : Report → Record
  | success index _ => .parsed index length
  | failure errors => .failed errors.length

/-! ## The failures that got furthest -/

/-- The elements in the order in which each stands first. -/
def distinct (expects : List String) : List String :=
  expects.foldl (fun found e => if e ∈ found then found else found ++ [e]) []

/-- The greatest offset of a failure and what was expected there, each expectation
once. Without failures this is the start of the text and nothing. -/
def furthest : List Expected → Int × List String
  | [] => (0, [])
  | e :: rest =>
    let index := rest.foldl (fun m e => max m e.index) e.index
    (index, distinct (((e :: rest).filter fun e => e.index == index).map (·.expect)))

/-! ## The printed form -/

def printedError (e : Expected) : String :=
  "Expected(index=" ++ toString e.index ++ ", expect=" ++ quoted e.expect ++ ")"

/-- The failures as a tuple. -/
def printedErrors : List Expected → String
  | [] => "()"
  | [e] => "(" ++ printedError e ++ ",)"
  | errors => "(" ++ ", ".intercalate (errors.map printedError) ++ ")"

/-- The printed form of a report. -/
def printed : Report → String
  | success index value =>
    "ParseSuccess(status=True, index=" ++ toString index ++ ", value=" ++ value.printed ++ ")"
  | failure errors => "ParseFailure(status=False, errors=" ++ printedErrors errors ++ ")"

end Report

/-! ## The report on a stream -/

namespace Stream

/-- The report on what is left of a stream, which is read up to its first success,
and the stream that is left then. No report is made where the fuel runs out before
a success or the end. -/
def report (rules : Rules) (text : Text) (fuel : Nat) (s : Stream) :
    Option (Action Report × Stream) := do
  let reading ← s.read rules text fuel Outcome.isSuccess fuel
  let settled := (⟨reading.events, .ok (Report.ofOutcomes reading.outcomes)⟩, reading.rest)
  match reading.stop with
  | .faulted fault => return (⟨reading.events, .error fault⟩, reading.rest)
  | .exhausted => return settled
  | .satisfied => if reading.outcomes.any Outcome.isSuccess then return settled else none

end Stream

end Backtrack
