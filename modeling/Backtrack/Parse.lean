-- Parsing a whole text: the three ways to do so, each of which writes one
-- record to the log unless a fault gets in the way.
import Backtrack.Report

namespace Backtrack.Parser

/-- Report on a text from its start. -/
def parse (rules : Rules) (fuel : Nat) (p : Parser) (text : Text) : Search Report := do
  let stream ← p.start rules text fuel 0
  let report ← (stream.report rules text fuel).map Prod.fst
  Action.emit (.logged (report.record text.length))
  return report

/-- Report on a text all of which is to be taken. -/
def parseToEnd (rules : Rules) (fuel : Nat) (p : Parser) (text : Text) : Search Report :=
  p.toEnd.parse rules fuel text

/-- The value of the report, or the error that tells where the failures that got
furthest happened. -/
def valueOrRaise (text : Text) : Report → Action Value
  | .success _ value => return value
  | .failure errors =>
    let (index, expected) := Report.furthest errors
    Action.raise (.unparsed ⟨text, index, expected⟩)

/-- The value of a text, all of which is to be taken if so asked. -/
def parseOrRaise (rules : Rules) (fuel : Nat) (p : Parser) (text : Text) (toEnd : Bool := false) :
    Search Value := do
  let report ← if toEnd then p.parseToEnd rules fuel text else p.parse rules fuel text
  valueOrRaise text report

end Backtrack.Parser
