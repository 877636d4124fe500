-- Events: what a run shows of itself, in the order in which it happens.
import Backtrack.Outcome

namespace Backtrack

/-- A record in the log. -/
inductive Record where
  | parsed (consumed : Int) (length : Nat)
  | failed (candidates : Nat)
  | emptyRepetition (offset : Int)
deriving DecidableEq, Repr

/-- The wording of a record. -/
def Record.message : Record → String
  | .parsed consumed length =>
    "Parse succeeded, consuming " ++ toString consumed ++ " of " ++ toString length
  | .failed candidates =>
    "Parse failed with " ++ toString candidates ++ " candidate(s)"
  | .emptyRepetition offset =>
    "Repeated parser consumed no input at offset " ++ toString offset

/-- Something that happens during a run. -/
inductive Event where
  /-- The body of a recursive parser is built. -/
  | built (name : String)
  /-- A step function is called at an offset. -/
  | called (id : String) (start : Int)
  /-- An outcome is asked of a step function, by its position from 1. -/
  | pulled (id : String) (position : Nat)
  /-- A function looks at the value of a success. -/
  | mapped (id : String) (value : Value)
  /-- A function looks at an outcome and its start. -/
  | seen (id : String) (outcome : Outcome) (start : Int)
  /-- A record is written to the log. -/
  | logged (record : Record)

namespace Event

/-- The record that an event writes to the log, if it is one that does. -/
def record? : Event → Option Record
  | logged record => some record
  | _ => none

/-- The log of a run. -/
def log (events : List Event) : List Record := events.filterMap record?

theorem log_append (events later : List Event) : log (events ++ later) = log events ++ log later :=
  List.filterMap_append

end Event

end Backtrack
